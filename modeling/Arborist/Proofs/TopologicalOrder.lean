import Arborist.Proofs.DependencyOrder

/-!
# Dependency order is topological

`inOrder` is a depth-first search from the fragments in the order of their names, and it looks for
spreads with a walk over each fragment. Here it is measured against what one expects of it, for any
fragments that go by their own names and are given in any order (`inOrder_topological`):

* The search ends: with a larger limit it is the same (`search_of_lt`).
* A fragment **leads** to those whose spreads stand in it, at any nesting, and the search fails
  exactly if some way along such spreads comes back to where it started (`Reentrant`).
* A list of fragments in order has each of them once and behind all that it spreads
  (`Ordered.nodup`, `Ordered.spreads_before`).
* Sorted names are the same in whatever order they were given, and so are lookups
  (`Fragments.names_congr`, `Dict.find?_congr`).
-/

namespace Arborist

/-- **Lookups do not depend on the order** of entries with distinct keys. -/
theorem Dict.find?_congr {α : Type} {d d' : Dict α} (h : d'.Perm d)
    (hkeys : (d.map Prod.fst).Nodup) (key : String) : find? key d' = find? key d := by
  have hkeys' : (d'.map Prod.fst).Nodup := ((h.map _).nodup_iff).mpr hkeys
  cases hfind : find? key d with
  | some value => exact find?_of_mem_of_nodup hkeys' (h.mem_iff.mpr (mem_of_find? hfind))
  | none =>
    cases hfind' : find? key d' with
    | none => rfl
    | some value =>
      rw [find?_of_mem_of_nodup hkeys (h.mem_iff.mp (mem_of_find? hfind'))] at hfind
      cases hfind

namespace Query.SelfNamed

variable {fragments : List (String × Ref Fragment)} (h : SelfNamed fragments)

include h

/-- The fragments are those that are found under their names. -/
theorem mem_iff {f : Ref Fragment} :
    f ∈ fragments.map Prod.snd ↔ Dict.find? f.value.name fragments = some f := by
  refine ⟨fun hf => ?_, fun hf => List.mem_map.mpr ⟨_, Dict.mem_of_find? hf, rfl⟩⟩
  obtain ⟨e, he, rfl⟩ := List.mem_map.mp hf
  exact h.find?_name he

theorem nodup_fragments : (fragments.map Prod.snd).Nodup := by
  have hnames : (fragments.map Prod.snd).map (·.value.name) = fragments.map Prod.fst := by
    rw [List.map_map]
    exact List.map_congr_left h.name_eq
  exact .of_map _ (hnames ▸ h.nodup)

end Query.SelfNamed

namespace Analysis

open Query

variable {fragments : Fragments}

/-! ### Fragments in order -/

namespace Ordered

variable {order before after : List (Ref Fragment)} {f : Ref Fragment}

/-- No fragment comes twice. -/
theorem nodup (h : Ordered fragments order) : order.Nodup := by
  induction h with
  | nil => exact List.nodup_nil
  | snoc _ _ new _ ih => exact List.nodup_append_comm.mp (List.nodup_cons.mpr ⟨new, ih⟩)

/-- The beginning of fragments in order is in order. -/
theorem of_append (h : Ordered fragments (before ++ after)) : Ordered fragments before := by
  induction after using List.reverseRecOn with
  | nil => exact List.append_nil before ▸ h
  | append_singleton after f ih =>
    rw [← List.append_assoc] at h
    generalize hall : before ++ after ++ [f] = all at h
    cases h with
    | nil => simp at hall
    | snoc earlier _ _ _ => exact ih ((List.append_inj' hall rfl).1 ▸ earlier)

/-- Every fragment comes behind all that it spreads. -/
theorem spreads_before (h : Ordered fragments (before ++ f :: after)) {name : String}
    (hname : name ∈ f.value.spreads) {g : Ref Fragment}
    (hg : Dict.find? name fragments = some g) : g ∈ before := by
  rw [List.append_cons] at h
  have hinit := h.of_append
  generalize hall : before ++ [f] = all at hinit
  cases hinit with
  | nil => simp at hall
  | snoc _ _ _ behind =>
    obtain ⟨rfl, hlast⟩ := List.append_inj' hall rfl
    obtain rfl := List.singleton_inj.mp hlast
    exact behind name hname g hg

end Ordered

/-! ### The search ends -/

/-- Folding with two functions is the same if they are, unless the first one gets to a certain
result. -/
theorem foldlM_congr_of_ne {α γ : Type} {i : Interrupt} {step step' : γ → α → Except Interrupt γ}
    (hstep : ∀ c a, step c a ≠ .error i → step' c a = step c a) {list : List α} {c : γ}
    (hne : list.foldlM step c ≠ .error i) : list.foldlM step' c = list.foldlM step c := by
  induction list generalizing c with
  | nil => rfl
  | cons a list ih =>
    rw [List.foldlM_cons] at hne ⊢
    have hfirst : step c a ≠ .error i := fun h => hne (by rw [h]; rfl)
    rw [List.foldlM_cons, hstep c a hfirst]
    cases ha : step c a with
    | error j => rfl
    | ok c' =>
      rw [ha] at hne
      exact ih hne

/-- A search that ends within its limit is the same with any larger one. -/
theorem addInOrder_of_le {fragment? : String → Option (Ref Fragment)} {limit limit' : Nat}
    (hle : limit ≤ limit') (f : Ref Fragment) (l : Listing)
    (hends : addInOrder fragment? limit f l ≠ .error .exhausted) :
    addInOrder fragment? limit' f l = addInOrder fragment? limit f l := by
  induction limit generalizing limit' f l with
  | zero => exact absurd rfl hends
  | succ limit ih =>
    obtain ⟨limit', rfl⟩ := Nat.exists_eq_add_of_le' (Nat.le_trans (Nat.succ_pos limit) hle)
    cases hmark : l.marks.find? f.value.name with
    | some m =>
      rw [addInOrder, addInOrder, hmark]
      cases m <;> rfl
    | none =>
      cases hnames : spreadNames f with
      | error i =>
        rw [addInOrder, addInOrder, hmark]
        simp only [hnames]
        rfl
      | ok names =>
        rw [addInOrder_new hmark hnames] at hends ⊢
        rw [addInOrder_new hmark hnames]
        refine congrArg (· >>= _) (foldlM_congr_of_ne (i := .exhausted) (fun l name hne => ?_)
          fun h => hends (by rw [h]; rfl))
        cases hg : fragment? name with
        | none => rfl
        | some g =>
          simp only [hg] at hne
          exact ih (Nat.le_of_succ_le_succ hle) g l hne

/-- **The search ends**: with any larger limit it is the same. -/
theorem search_of_lt (hnamed : SelfNamed fragments) (hcoherent : CoherentFragments fragments)
    {limit : Nat} (hlimit : fragments.length < limit) :
    fragments.search limit = fragments.search (fragments.length + 1) := by
  refine foldlM_congr_of_ne (i := .exhausted) (fun l name hne => ?_) fun hexhausted => ?_
  · cases hf : Dict.find? name fragments with
    | none => rfl
    | some f =>
      simp only [hf] at hne
      exact addInOrder_of_le hlimit f l hne
  · have hcomes := inOrder_comesTo hnamed hcoherent
    rw [inOrder, Fragments.search, hexhausted] at hcomes
    obtain ⟨_, _, _, hinterrupt, _⟩ := hcomes
    cases hinterrupt

/-! ### The order of the entries -/

/-- Names that are given in another order are **sorted alike**. -/
theorem Fragments.names_congr {fragments' : Fragments} (h : fragments'.Perm fragments) :
    fragments'.names = fragments.names := by
  have hsorted : ∀ fragments : Fragments, fragments.names.Pairwise (· ≤ ·) := fun fragments =>
    (List.pairwise_mergeSort (fun a b c hab hbc => by simp at *; exact String.le_trans hab hbc)
      (fun a b => by simpa using String.le_total a b) _).imp fun h => by simpa using h
  refine List.Perm.eq_of_pairwise (fun a b _ _ hab hba => String.le_antisymm hab hba)
    (hsorted _) (hsorted _) ?_
  exact (List.mergeSort_perm _ _).trans ((h.map _).trans (List.mergeSort_perm _ _).symm)

/-- **The result does not depend on the order** in which the fragments are given. -/
theorem inOrder_congr {fragments' : Fragments} (h : fragments'.Perm fragments)
    (hkeys : (fragments.map Prod.fst).Nodup) : inOrder fragments' = inOrder fragments := by
  simp only [inOrder, Fragments.search, Fragments.names_congr h, h.length_eq,
    Dict.find?_congr h hkeys]

/-! ### A topological order -/

/-- A fragment **leads** to the fragments whose spreads stand in it, in whatever fields and inline
fragments. -/
def Leads (fragments : Fragments) (f g : Ref Fragment) : Prop :=
  g ∈ fragments.map Prod.snd ∧ SpreadIn g.value.name f.value.selections.items

/-- A fragment is **reentrant** if a way from it leads back to it. -/
def Reentrant (fragments : Fragments) (f : Ref Fragment) : Prop :=
  Relation.TransGen (Leads fragments) f f

section SelfNamed

variable (hnamed : SelfNamed fragments)

include hnamed

/-- The ways from a fragment lead along spreads. -/
theorem spreads_of_transGen {f g : Ref Fragment} (hway : Relation.TransGen (Leads fragments) f g) :
    Dict.find? g.value.name fragments = some g ∧
      Spreads (Dict.find? · fragments) f.value.selections.items g.value.name := by
  induction hway with
  | single hlead => exact ⟨hnamed.mem_iff.mp hlead.1, .direct (spreadIn_iff.mp hlead.2)⟩
  | tail _ hlead ih =>
    exact ⟨hnamed.mem_iff.mp hlead.1, .through ih.2 ih.1 (spreadIn_iff.mp hlead.2)⟩

/-- Whatever a fragment spreads, be it through others, is on a way from it. -/
theorem transGen_of_spreads {f g : Ref Fragment} {name : String}
    (h : Spreads (Dict.find? · fragments) f.value.selections.items name)
    (hg : Dict.find? name fragments = some g) : Relation.TransGen (Leads fragments) f g := by
  induction h generalizing g with
  | direct hmem =>
    obtain rfl := hnamed.name_of_find? hg
    exact .single ⟨hnamed.mem_iff.mpr hg, spreadIn_iff.mpr hmem⟩
  | through _ hf' hother ih =>
    obtain rfl := hnamed.name_of_find? hg
    exact (ih hf').tail ⟨hnamed.mem_iff.mpr hg, spreadIn_iff.mpr hother⟩

variable (hcoherent : CoherentFragments fragments)

include hcoherent

/-- A failure names a reentrant fragment. -/
theorem reentrant_of_error {i : Interrupt} (hi : inOrder fragments = .error i) :
    ∃ f ∈ fragments.map Prod.snd, Reentrant fragments f ∧
      i = .failed (.fragmentCycle f.value.name) := by
  have hcomes := inOrder_comesTo hnamed hcoherent
  rw [hi] at hcomes
  obtain ⟨name, f, hf, rfl, hcycle⟩ := hcomes
  obtain rfl := hnamed.name_of_find? hf
  exact ⟨f, hnamed.mem_iff.mpr hf, transGen_of_spreads hnamed hcycle hf, rfl⟩

/-- A result has every fragment once, and no fragment is reentrant. -/
theorem perm_of_ok {order : List (Ref Fragment)} (hok : inOrder fragments = .ok order) :
    Ordered fragments order ∧ order.Perm (fragments.map Prod.snd) := by
  have hcomes := inOrder_comesTo hnamed hcoherent
  rw [hok] at hcomes
  obtain ⟨hordered, hall⟩ := hcomes
  refine ⟨hordered, (List.perm_ext_iff_of_nodup hordered.nodup hnamed.nodup_fragments).mpr
    fun f => ?_⟩
  rw [hnamed.mem_iff]
  exact ⟨hordered.found_of_mem, hall _ f⟩

/-- The search fails exactly if there is a reentrant fragment. -/
theorem exists_error_iff : (∃ i, inOrder fragments = .error i) ↔
    ∃ f ∈ fragments.map Prod.snd, Reentrant fragments f := by
  constructor
  · rintro ⟨i, hi⟩
    obtain ⟨f, hf, hcycle, -⟩ := reentrant_of_error hnamed hcoherent hi
    exact ⟨f, hf, hcycle⟩
  · rintro ⟨f, hf, hcycle⟩
    cases hin : inOrder fragments with
    | error i => exact ⟨i, rfl⟩
    | ok order =>
      obtain ⟨hordered, hperm⟩ := perm_of_ok hnamed hcoherent hin
      exact absurd (spreads_of_transGen hnamed hcycle).2 (hordered.acyclic (hperm.mem_iff.mpr hf))

end SelfNamed

/-- **Dependency order is topological.** For fragments that go by their own names, one for each name
and in whatever order, and of each of which one place of storage holds one node:

* The walk over each fragment ends, and it notes the names of the spreads that stand in the fragment,
  in whatever fields and inline fragments, and no others.
* The search ends: with any larger limit it is the same.
* It fails exactly if some fragment is reentrant, and then it names such a fragment; it does not fail
  in any other way.
* Otherwise it gives each fragment once, behind all fragments whose spreads stand in it. Spreads of
  other names do not matter.
* The result, and the fragment that a failure names, do not depend on the order in which the
  fragments are given. -/
theorem inOrder_topological {fragments : Fragments} (hkeys : (fragments.map Prod.fst).Nodup)
    (hnames : ∀ e ∈ fragments, e.2.value.name = e.1)
    (hnodes : ∀ e ∈ fragments, Coherent e.2.ofFragment.within) :
    (∀ f ∈ fragments.map Prod.snd, ∃ names, spreadNames f = .ok names ∧
      ∀ name, name ∈ names ↔ SpreadIn name f.value.selections.items) ∧
    (∀ limit, fragments.length < limit →
      fragments.search limit = fragments.search (fragments.length + 1)) ∧
    ((∃ i, inOrder fragments = .error i) ↔
      ∃ f ∈ fragments.map Prod.snd, Reentrant fragments f) ∧
    (∀ i, inOrder fragments = .error i → ∃ f ∈ fragments.map Prod.snd,
      Reentrant fragments f ∧ i = .failed (.fragmentCycle f.value.name)) ∧
    (∀ order, inOrder fragments = .ok order →
      order.Perm (fragments.map Prod.snd) ∧
        ∀ before f after, order = before ++ f :: after → ∀ g ∈ fragments.map Prod.snd,
          SpreadIn g.value.name f.value.selections.items → g ∈ before) ∧
    ∀ fragments' : Fragments, fragments'.Perm fragments →
      inOrder fragments' = inOrder fragments := by
  have hnamed : SelfNamed fragments := ⟨hkeys, hnames⟩
  refine ⟨fun f hf => ?_, fun limit => search_of_lt hnamed hnodes,
    exists_error_iff hnamed hnodes, fun i => reentrant_of_error hnamed hnodes, fun order hok => ?_,
    fun fragments' hperm => inOrder_congr hperm hkeys⟩
  · obtain ⟨e, he, rfl⟩ := List.mem_map.mp hf
    exact mem_spreadNames e.2 (hnodes e he)
  · obtain ⟨hordered, horder⟩ := perm_of_ok hnamed hnodes hok
    refine ⟨horder, fun before f after hsplit g hg hspread => ?_⟩
    exact (hsplit ▸ hordered).spreads_before (spreadIn_iff.mp hspread) (hnamed.mem_iff.mp hg)

/-! ### Small documents -/

/-- A fragment with its name, whose selections are stored under a label. -/
def entry (name : String) (label : Nat) (items : List Selection) : String × Ref Fragment :=
  (name, ⟨⟨0, label⟩, { name, typeCondition := "T", directives := .empty,
                        selections := ⟨label, items⟩ }⟩)

/-- A field whose selections are stored under a label. -/
def fieldOver (name : String) (label : Nat) (items : List Selection) : Selection :=
  .field { alias? := none, name, arguments := .empty, directives := .empty } ⟨label, items⟩

/-- Two fragments, not in the order of their names. The spread of the second one stands in an inline
fragment below a field, and two fields own one selection set. -/
def chain : Fragments :=
  [entry "B" 1 [fieldOver "p" 2 [], .spread "Z" .empty],
    entry "A" 3 [fieldOver "q" 4 [.inline none .empty ⟨5, [.spread "B" .empty]⟩],
      fieldOver "r" 4 [.inline none .empty ⟨5, [.spread "B" .empty]⟩]]]

/-- Two fragments that spread each other, one of them below a field. -/
def loop : Fragments :=
  [entry "B" 1 [fieldOver "p" 2 [.spread "A" .empty]], entry "A" 3 [.spread "B" .empty]]

theorem chain_coherent : ∀ e ∈ chain, Coherent e.2.ofFragment.within := by
  simp [Coherent, chain, entry, fieldOver, Ref.ofFragment, Ref.map, Handle.within, Element.inner,
    Element.selections, Selection.innerList, Selection.inner]

theorem loop_coherent : ∀ e ∈ loop, Coherent e.2.ofFragment.within := by
  have hnodup : ∀ e ∈ loop, (e.2.ofFragment.within.map Ref.id).Nodup := by decide
  exact fun e he => .of_nodup (hnodup e he)

theorem chain_names : chain.names = ["A", "B"] := by
  simp [Fragments.names, chain, entry, List.mergeSort]

theorem inOrder_topological_chain :
    (∃ order, inOrder chain = .ok order ∧ order.map (·.value.name) = ["B", "A"] ∧
      order.Perm (chain.map Prod.snd)) ∧
    inOrder chain.reverse = inOrder chain ∧
    ∃ f ∈ loop.map Prod.snd, Reentrant loop f ∧
      inOrder loop = .error (.failed (.fragmentCycle f.value.name)) := by
  have hkeys : (chain.map Prod.fst).Nodup ∧ (loop.map Prod.fst).Nodup := by decide
  obtain ⟨-, -, -, -, horder, hcongr⟩ := inOrder_topological hkeys.1 (by decide) chain_coherent
  obtain ⟨-, -, hcycle, herror, -, -⟩ := inOrder_topological hkeys.2 (by decide) loop_coherent
  refine ⟨?_, hcongr _ (List.reverse_perm chain), ?_⟩
  · have hnames : (inOrder chain).toOption.map (·.map (·.value.name)) = some ["B", "A"] := by
      simp only [inOrder, Fragments.search, chain_names]
      decide +kernel
    cases hin : inOrder chain with
    | error i => simp [hin, Except.toOption] at hnames
    | ok order =>
      rw [hin] at hnames
      exact ⟨order, rfl, Option.some.inj hnames, (horder order hin).1⟩
  · have hself : Reentrant loop (entry "B" 1 [fieldOver "p" 2 [.spread "A" .empty]]).2 :=
      .tail (.single ⟨List.mem_cons_of_mem _ List.mem_cons_self,
          .field List.mem_cons_self (.here List.mem_cons_self)⟩)
        ⟨List.mem_cons_self, .here List.mem_cons_self⟩
    obtain ⟨i, hi⟩ := hcycle.mpr ⟨_, List.mem_cons_self, hself⟩
    obtain ⟨f, hf, hreentrant, rfl⟩ := herror i hi
    exact ⟨f, hf, hreentrant, hi⟩

end Analysis

end Arborist
