import Arborist.Proofs.SpreadNames

/-!
# Fragments in order of dependency

What `inOrder` does: it lists **all** fragments of a document, each after those that it spreads,
unless some fragment spreads itself.

* `Ordered` says of a list of fragments that each comes after all that it spreads. In such a list no
  fragment spreads itself (`Ordered.acyclic`), be it through others.
* `Listed` is the invariant of the search: fragments are marked as done if they are listed, and as
  open if they are on the way down, and what is listed is in order.
* `addInOrder_comesTo` is what one search does. The fragments that are open all spread the one that
  is searched for, so meeting one of them again is a cycle; and they are different, so there are no
  more of them than fragments, and the limit is never reached.
* `inOrder_comesTo`: the search from every fragment.
-/

namespace Arborist

/-! ### Entries of a dictionary -/

namespace Dict

variable {α : Type}

/-- The keys are in ascending order. -/
def Ascending (d : Dict α) : Prop :=
  d.Pairwise fun x y => x.1 < y.1

theorem mem_insert {key : String} {value : α} {d : Dict α} {e : String × α}
    (h : e ∈ insert key value d) : e = (key, value) ∨ e ∈ d := by
  induction d with
  | nil => exact .inl (List.mem_singleton.mp h)
  | cons x d ih =>
    obtain ⟨k, v⟩ := x
    rw [insert] at h
    split at h
    · exact (List.mem_cons.mp h).imp id (List.mem_cons_of_mem _)
    · split at h
      · exact List.mem_cons.mp h
      · rcases List.mem_cons.mp h with rfl | h
        · exact .inr List.mem_cons_self
        · exact (ih h).imp id (List.mem_cons_of_mem _)

theorem Ascending.insert {d : Dict α} (h : d.Ascending) (key : String) (value : α) :
    (d.insert key value).Ascending := by
  induction d with
  | nil => exact List.pairwise_singleton _ _
  | cons x d ih =>
    obtain ⟨k, v⟩ := x
    obtain ⟨hfirst, hrest⟩ := List.pairwise_cons.mp h
    rw [Dict.insert]
    split
    · next hk =>
      subst hk
      exact List.pairwise_cons.mpr ⟨hfirst, hrest⟩
    · next hk =>
      split
      · next hlt =>
        refine List.pairwise_cons.mpr ⟨fun e he => ?_, h⟩
        rcases List.mem_cons.mp he with rfl | he
        · exact hlt
        · exact String.lt_trans hlt (hfirst e he)
      · next hlt =>
        refine List.pairwise_cons.mpr ⟨fun e he => ?_, ih hrest⟩
        rcases mem_insert he with rfl | he
        · exact Std.lt_of_le_of_ne hlt hk
        · exact hfirst e he

theorem Ascending.nodup {d : Dict α} (h : d.Ascending) : (d.map Prod.fst).Nodup :=
  (List.pairwise_map.mpr h : (d.map Prod.fst).Pairwise (· < ·)).imp fun {a b} hlt => by
    rintro rfl
    exact String.lt_irrefl a hlt

theorem ascending_ofList (entries : List (String × α)) : (ofList entries).Ascending := by
  suffices h : ∀ d : Dict α, d.Ascending →
      (entries.foldl (fun d e => d.insert e.1 e.2) d).Ascending from h [] List.Pairwise.nil
  induction entries with
  | nil => exact fun _ hd => hd
  | cons e entries ih => exact fun d hd => ih _ (hd.insert e.1 e.2)

/-- Every entry is found under its key, if no other one has it. -/
theorem find?_of_mem_of_nodup {d : Dict α} (h : (d.map Prod.fst).Nodup) {key : String} {value : α}
    (hmem : (key, value) ∈ d) : find? key d = some value := by
  induction d with
  | nil => exact absurd hmem List.not_mem_nil
  | cons x d ih =>
    obtain ⟨k, v⟩ := x
    obtain ⟨hfirst, hrest⟩ := List.nodup_cons.mp h
    rw [find?]
    rcases List.mem_cons.mp hmem with heq | hmem
    · obtain ⟨rfl, rfl⟩ := Prod.mk.inj heq
      exact if_pos rfl
    · have hkey : key ∈ d.map Prod.fst := List.mem_map.mpr ⟨_, hmem, rfl⟩
      rw [if_neg (fun hk : k = key => hfirst (hk ▸ hkey)), ih hrest hmem]

theorem Ascending.find?_of_mem {d : Dict α} (h : d.Ascending) {key : String} {value : α}
    (hmem : (key, value) ∈ d) : find? key d = some value :=
  find?_of_mem_of_nodup h.nodup hmem

end Dict

namespace Query

/-- Fragments that **go by their own names**, one for each name. -/
structure SelfNamed (fragments : List (String × Ref Fragment)) : Prop where
  nodup : (fragments.map Prod.fst).Nodup
  name_eq : ∀ e ∈ fragments, e.2.value.name = e.1

namespace SelfNamed

variable {fragments : List (String × Ref Fragment)}

theorem name_of_find? (h : SelfNamed fragments) {name : String} {f : Ref Fragment}
    (hf : Dict.find? name fragments = some f) : f.value.name = name :=
  h.name_eq _ (Dict.mem_of_find? hf)

theorem find?_name (h : SelfNamed fragments) {e : String × Ref Fragment} (he : e ∈ fragments) :
    Dict.find? e.2.value.name fragments = some e.2 := by
  rw [h.name_eq e he]
  exact Dict.find?_of_mem_of_nodup h.nodup he

end SelfNamed

/-- The fragments of a document go by their own names. -/
theorem Document.selfNamed (d : Document) : SelfNamed d.fragments where
  nodup := (Dict.ascending_ofList _).nodup
  name_eq := fun e he => name_of_fragment? (d.find?_fragments e.1 ▸
    (Dict.ascending_ofList _).find?_of_mem (show (e.1, e.2) ∈ d.fragments from he))

end Query

namespace Analysis

open Query

@[simp] theorem Listing.order_mark (l : Listing) (name : String) (m : Mark) :
    (l.mark name m).order = l.order := rfl

/-- Marking one fragment leaves the other marks alone. -/
theorem Listing.find?_mark (l : Listing) (name : String) (m : Mark) (other : String) :
    (l.mark name m).marks.find? other = if name = other then some m else l.marks.find? other :=
  Dict.find?_insert _ _ _ _

/-- The search below a fragment that is not marked. -/
theorem addInOrder_new {fragment? : String → Option (Ref Fragment)} {limit : Nat} {f : Ref Fragment}
    {l : Listing} {names : List String} (hmark : l.marks.find? f.value.name = none)
    (hnames : spreadNames f = .ok names) :
    addInOrder fragment? (limit + 1) f l =
      (names.foldlM (fun l name =>
        match fragment? name with
        | some g => addInOrder fragment? limit g l
        | none => .ok l) (l.mark f.value.name .isOpen) >>= fun below =>
          .ok { below.mark f.value.name .isDone with order := below.order ++ [f] }) := by
  rw [addInOrder, hmark]
  simp only [hnames]
  rfl

section Order

variable (fragments : Fragments)

/-- Fragments **in order**: each comes after all that it spreads, and no fragment comes twice. -/
inductive Ordered : List (Ref Fragment) → Prop
  | nil : Ordered []
  | snoc {order : List (Ref Fragment)} {f : Ref Fragment} (before : Ordered order)
      (found : Dict.find? f.value.name fragments = some f) (new : f ∉ order)
      (after : ∀ name ∈ f.value.spreads, ∀ g, Dict.find? name fragments = some g → g ∈ order) :
      Ordered (order ++ [f])

/-- An error that names a fragment which **spreads itself**. -/
def Cyclic (i : Interrupt) : Prop :=
  ∃ name f, Dict.find? name fragments = some f ∧ i = .failed (.fragmentCycle name) ∧
    Spreads (Dict.find? · fragments) f.value.selections.items name

/-- What a search has come to, with some fragments **open**: the marks tell them from those that are
listed, and these are in order. -/
structure Listed (around : List String) (l : Listing) : Prop where
  ordered : Ordered fragments l.order
  done : ∀ name, l.marks.find? name = some .isDone ↔ ∃ g ∈ l.order, g.value.name = name
  isOpen : ∀ name, l.marks.find? name = some .isOpen ↔ name ∈ around

/-- The fragments that are **open** on the way to a fragment: different ones, all of which spread
it. -/
structure Opened (name : String) (around : List String) : Prop where
  nodup : around.Nodup
  spreads : ∀ other ∈ around, ∃ g, Dict.find? other fragments = some g ∧
    Spreads (Dict.find? · fragments) g.value.selections.items name

variable {fragments} {order : List (Ref Fragment)} {f : Ref Fragment} {name : String}
  {around : List String} {l l' l'' : Listing}

namespace Ordered

theorem found_of_mem (h : Ordered fragments order) (hf : f ∈ order) :
    Dict.find? f.value.name fragments = some f := by
  induction h with
  | nil => exact absurd hf List.not_mem_nil
  | snoc _ found _ _ ih =>
    rcases List.mem_append.mp hf with hf | hf
    · exact ih hf
    · exact (List.mem_singleton.mp hf) ▸ found

/-- What a fragment of the order spreads itself is in the order, if it is defined. -/
theorem spread_mem (h : Ordered fragments order) (hf : f ∈ order) (hname : name ∈ f.value.spreads)
    {g : Ref Fragment} (hg : Dict.find? name fragments = some g) : g ∈ order := by
  induction h with
  | nil => exact absurd hf List.not_mem_nil
  | snoc _ _ _ after ih =>
    refine List.mem_append_left _ ?_
    rcases List.mem_append.mp hf with hf | hf
    · exact ih hf
    · obtain rfl := List.mem_singleton.mp hf
      exact after name hname g hg

/-- What some selections spread is in the order, if what they spread themselves is. -/
theorem mem_of_spreads (h : Ordered fragments order) {items : List Selection}
    (hitems : ∀ name ∈ Selection.spreadsList items, ∀ g, Dict.find? name fragments = some g →
      g ∈ order)
    (hspreads : Spreads (Dict.find? · fragments) items name) {g : Ref Fragment}
    (hg : Dict.find? name fragments = some g) : g ∈ order := by
  induction hspreads generalizing g with
  | direct hname => exact hitems _ hname g hg
  | through _ hf hother ih => exact h.spread_mem (ih hf) hother hg

/-- **In order there are no cycles**: all that a fragment spreads comes before it. -/
theorem acyclic (h : Ordered fragments order) (hf : f ∈ order) :
    ¬Spreads (Dict.find? · fragments) f.value.selections.items f.value.name := by
  induction h with
  | nil => exact absurd hf List.not_mem_nil
  | snoc before found new after ih =>
    rcases List.mem_append.mp hf with hf | hf
    · exact ih hf
    · obtain rfl := List.mem_singleton.mp hf
      exact fun hself => new (before.mem_of_spreads after hself found)

end Ordered

namespace Opened

/-- There are no more open fragments than fragments. -/
theorem length_le (h : Opened fragments name around) : around.length ≤ fragments.length := by
  have hsub : around ⊆ fragments.map Prod.fst := by
    intro other hother
    obtain ⟨g, hg, -⟩ := h.spreads other hother
    exact List.mem_map.mpr ⟨(other, g), Dict.mem_of_find? hg, rfl⟩
  have hle := (List.subperm_of_subset h.nodup hsub).length_le
  rwa [List.length_map] at hle

/-- On the way from a fragment to one that it spreads, it is open as well. -/
theorem push (h : Opened fragments f.value.name around)
    (hf : Dict.find? f.value.name fragments = some f) (hopen : f.value.name ∉ around)
    {other : String} (hother : other ∈ f.value.spreads) :
    Opened fragments other (f.value.name :: around) where
  nodup := List.nodup_cons.mpr ⟨hopen, h.nodup⟩
  spreads := by
    intro n hn
    rcases List.mem_cons.mp hn with rfl | hn
    · exact ⟨f, hf, .direct hother⟩
    · obtain ⟨g, hg, hspreads⟩ := h.spreads n hn
      exact ⟨g, hg, .through hspreads hf hother⟩

end Opened

namespace Listed

/-- Nothing is marked before the search. -/
theorem start : Listed fragments [] {} where
  ordered := .nil
  done := fun _ => ⟨nofun, fun ⟨_, hg, _⟩ => absurd hg List.not_mem_nil⟩
  isOpen := fun _ => ⟨nofun, fun h => absurd h List.not_mem_nil⟩

/-- A fragment that is not marked is opened. -/
theorem openMark (h : Listed fragments around l) (hnew : l.marks.find? name = none) :
    Listed fragments (name :: around) (l.mark name .isOpen) where
  ordered := h.ordered
  done := fun other => by
    rw [Listing.order_mark, ← h.done, Listing.find?_mark]
    split
    · next heq => simp [← heq, hnew]
    · rfl
  isOpen := fun other => by
    rw [Listing.find?_mark, List.mem_cons]
    split
    · next heq => simp [heq]
    · next hne => rw [h.isOpen, or_iff_right (Ne.symm hne)]

/-- A fragment is listed when all that it spreads is listed. -/
theorem closeMark (h : Listed fragments (f.value.name :: around) l)
    (hf : Dict.find? f.value.name fragments = some f) (hnew : f.value.name ∉ around)
    (hafter : ∀ name ∈ f.value.spreads, ∀ g, Dict.find? name fragments = some g → g ∈ l.order) :
    Listed fragments around { l.mark f.value.name .isDone with order := l.order ++ [f] } where
  ordered := by
    refine .snoc h.ordered hf (fun hmem => ?_) hafter
    have hdone := (h.done _).mpr ⟨f, hmem, rfl⟩
    rw [(h.isOpen _).mpr List.mem_cons_self] at hdone
    cases hdone
  done := fun name => by
    rw [Listing.find?_mark]
    split
    · next heq =>
      exact iff_of_true rfl ⟨f, List.mem_append_right _ List.mem_cons_self, heq⟩
    · next hne =>
      rw [h.done]
      refine exists_congr fun g => and_congr_left fun hname => ?_
      rw [List.mem_append, List.mem_singleton, or_iff_left]
      rintro rfl
      exact hne hname
  isOpen := fun name => by
    rw [Listing.find?_mark]
    split
    · next heq => exact iff_of_false nofun (heq ▸ hnew)
    · next hne => rw [h.isOpen, List.mem_cons, or_iff_right (Ne.symm hne)]

end Listed

/-- A search **comes to** a listing with some property, or it finds a cycle. -/
def ComesTo (fragments : Fragments) (goal : Listing → Prop) : Except Interrupt Listing → Prop
  | .ok l => goal l
  | .error i => Cyclic fragments i

theorem ComesTo.imp {goal goal' : Listing → Prop} {x : Except Interrupt Listing}
    (h : ComesTo fragments goal x) (himp : ∀ l, goal l → goal' l) : ComesTo fragments goal' x := by
  cases x with
  | ok l => exact himp l h
  | error i => exact h

theorem ComesTo.bind {goal goal' : Listing → Prop} {x : Except Interrupt Listing}
    {next : Listing → Except Interrupt Listing} (h : ComesTo fragments goal x)
    (hnext : ∀ l, goal l → ComesTo fragments goal' (next l)) :
    ComesTo fragments goal' (x >>= next) := by
  cases x with
  | ok l => exact hnext l h
  | error i => exact h

/-- What a search does: the same fragments are open, and it only adds to what is listed. -/
def Extends (fragments : Fragments) (around : List String) (l l' : Listing) : Prop :=
  Listed fragments around l' ∧ l.order ⊆ l'.order

/-- Searching for one name after the other, if every single search does what it should. -/
theorem foldlM_comesTo {search : Listing → String → Except Interrupt Listing} {names : List String}
    (hsearch : ∀ name ∈ names, ∀ l, Listed fragments around l → ComesTo fragments
      (fun l' => Extends fragments around l l' ∧
        ∀ g, Dict.find? name fragments = some g → g ∈ l'.order) (search l name))
    (hlisted : Listed fragments around l) :
    ComesTo fragments (fun l' => Extends fragments around l l' ∧
      ∀ name ∈ names, ∀ g, Dict.find? name fragments = some g → g ∈ l'.order)
      (names.foldlM search l) := by
  induction names generalizing l with
  | nil => exact ⟨⟨hlisted, fun _ h => h⟩, fun _ h => absurd h List.not_mem_nil⟩
  | cons name names ih =>
    rw [List.foldlM_cons]
    refine (hsearch name List.mem_cons_self l hlisted).bind fun l' ⟨⟨hlisted', hsub⟩, hname⟩ => ?_
    refine (ih (fun n hn => hsearch n (List.mem_cons_of_mem _ hn)) hlisted').imp
      fun l'' ⟨⟨hlisted'', hsub'⟩, hnames⟩ =>
        ⟨⟨hlisted'', fun g hg => hsub' (hsub hg)⟩, List.forall_mem_cons.mpr ⟨?_, hnames⟩⟩
    exact fun g hg => hsub' (hname g hg)

/-- The nodes of every fragment are **coherent**. -/
def CoherentFragments (fragments : Fragments) : Prop :=
  ∀ e ∈ fragments, Coherent e.2.ofFragment.within

/-- **One search**: the fragment is listed after all that it spreads, or there is a cycle. The limit
is not reached, since it exceeds the number of fragments that are not open. -/
theorem addInOrder_comesTo (hnamed : SelfNamed fragments) (hcoherent : CoherentFragments fragments)
    (limit : Nat) (hf : Dict.find? f.value.name fragments = some f)
    (hlisted : Listed fragments around l) (hopened : Opened fragments f.value.name around)
    (hlimit : fragments.length < limit + around.length) :
    ComesTo fragments (fun l' => Extends fragments around l l' ∧ f ∈ l'.order)
      (addInOrder (Dict.find? · fragments) limit f l) := by
  induction limit generalizing around f l with
  | zero =>
    -- there are no more open fragments than fragments
    have hle := hopened.length_le
    omega
  | succ limit ih =>
    cases hmark : l.marks.find? f.value.name with
    | some m =>
      rw [addInOrder, hmark]
      cases m with
      | isDone =>
        -- it is listed already
        obtain ⟨g, hg, hname⟩ := (hlisted.done _).mp hmark
        have hfound := hlisted.ordered.found_of_mem hg
        rw [hname, hf] at hfound
        obtain rfl := Option.some.inj hfound
        exact ⟨⟨hlisted, fun _ h => h⟩, hg⟩
      | isOpen =>
        -- it is open, and so it spreads itself
        obtain ⟨g, hg, hself⟩ := hopened.spreads _ ((hlisted.isOpen _).mp hmark)
        exact ⟨_, g, hg, rfl, hself⟩
    | none =>
      have hopen : f.value.name ∉ around := fun hmem => by
        rw [(hlisted.isOpen _).mpr hmem] at hmark
        cases hmark
      obtain ⟨names, hnames, hmem⟩ := mem_spreadNames f (hcoherent _ (Dict.mem_of_find? hf))
      rw [addInOrder_new hmark hnames]
      -- first what it spreads is searched for; the fragment itself is open meanwhile
      refine ComesTo.bind (foldlM_comesTo (fun other hother l hlisted => ?_)
        (hlisted.openMark hmark)) fun below ⟨⟨hlisted', hsub⟩, hbelow⟩ => ?_
      · have hspread : other ∈ f.value.spreads := spreadIn_iff.mp ((hmem other).mp hother)
        cases hg : Dict.find? other fragments with
        | none => exact ⟨⟨hlisted, fun _ h => h⟩, nofun⟩
        | some g =>
          obtain rfl := hnamed.name_of_find? hg
          exact (ih hg hlisted (hopened.push hf hopen hspread) (by rw [List.length_cons]; omega)).imp
            fun l' h => ⟨h.1, fun g' hg' => Option.some.inj hg' ▸ h.2⟩
      · have hafter : ∀ name ∈ f.value.spreads, ∀ g, Dict.find? name fragments = some g →
            g ∈ below.order := fun name hname =>
          hbelow name ((hmem name).mpr (spreadIn_iff.mpr hname))
        exact ⟨⟨hlisted'.closeMark hf hopen hafter, fun g hg => List.mem_append_left _ (hsub hg)⟩,
          List.mem_append_right _ List.mem_cons_self⟩

end Order

/-- Every fragment is searched for. -/
theorem Fragments.mem_names {fragments : Fragments} {name : String} :
    name ∈ fragments.names ↔ name ∈ fragments.map Prod.fst :=
  List.mem_mergeSort

/-- The fragments of a document are kept in the order of their names. -/
theorem Fragments.names_document (d : Document) :
    Fragments.names d.fragments = d.fragments.map Prod.fst := by
  refine List.mergeSort_of_pairwise ?_
  rw [List.pairwise_map]
  exact (Dict.ascending_ofList _).imp fun hlt => by simpa using Std.le_of_lt hlt

/-- **All fragments in order**, each after those that it spreads, unless some fragment spreads
itself. -/
theorem inOrder_comesTo {fragments : Fragments} (hnamed : SelfNamed fragments)
    (hcoherent : CoherentFragments fragments) :
    match inOrder fragments with
    | .ok order => Ordered fragments order ∧
      ∀ name f, Dict.find? name fragments = some f → f ∈ order
    | .error i => Cyclic fragments i := by
  have hall : ComesTo fragments (fun l => Extends fragments [] {} l ∧ ∀ name ∈ fragments.names,
      ∀ f, Dict.find? name fragments = some f → f ∈ l.order)
      (fragments.search (fragments.length + 1)) := by
    refine foldlM_comesTo (fun name hname l hlisted => ?_) .start
    cases hf : Dict.find? name fragments with
    | none => exact ⟨⟨hlisted, fun _ h => h⟩, nofun⟩
    | some f =>
      obtain rfl := hnamed.name_of_find? hf
      exact (addInOrder_comesTo hnamed hcoherent _ hf hlisted ⟨List.nodup_nil, nofun⟩
        (by simp)).imp fun l' h => ⟨h.1, fun g hg => Option.some.inj hg ▸ h.2⟩
  rw [inOrder]
  cases hsearch : fragments.search (fragments.length + 1) with
  | error i =>
    rw [hsearch] at hall
    exact hall
  | ok l =>
    rw [hsearch] at hall
    obtain ⟨⟨hlisted, -⟩, hmem⟩ := hall
    refine ⟨hlisted.ordered, fun name f hf => hmem name ?_ f hf⟩
    exact Fragments.mem_names.mpr (List.mem_map.mpr ⟨_, Dict.mem_of_find? hf, rfl⟩)

end Analysis

end Arborist
