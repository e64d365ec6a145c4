import Arborist.Analysis.Selections
import Mathlib

/-!
# Inlining fragments

What an operation says once every spread has been replaced by the selections of its fragment.

* `Spreads` is **reachability**: which fragments are spread by some selections, also through the
  definitions of other fragments. Selections are `Expandable` if all of these are defined and none
  of them spreads itself.
* `Inlines` replaces the spreads. Selections have at most one inlining (`Inlines.unique`), and one
  that has an inlining is expandable (`Inlines.expandable`): a cycle would make it infinite.
* `Nested` counts fields that are nested inside one another, and `HasDepth` is the largest such
  number after inlining.
* `Document.fragment?` is the last fragment of a name, which is the one that a document looks up
  (`Document.find?_fragments`).
-/

namespace Arborist

/-! ### The last entry counts -/

namespace Dict

variable {α : Type}

theorem find?_foldl_insert (key : String) (entries : List (String × α)) (d : Dict α) :
    find? key (entries.foldl (fun d e => insert e.1 e.2 d) d) =
      ((entries.reverse.find? (·.1 = key)).map Prod.snd).or (find? key d) := by
  induction entries generalizing d with
  | nil => rfl
  | cons e entries ih =>
    rw [List.foldl_cons, ih, find?_insert, List.reverse_cons, List.find?_append]
    cases entries.reverse.find? (·.1 = key) with
    | some e' => rfl
    | none => by_cases he : e.1 = key <;> simp [he]

/-- A dictionary has the last entry of a key. -/
theorem find?_ofList (key : String) (entries : List (String × α)) :
    find? key (ofList entries) = (entries.reverse.find? (·.1 = key)).map Prod.snd := by
  rw [ofList, find?_foldl_insert, find?, Option.or_none]

theorem mem_of_find? {key : String} {value : α} {d : Dict α} (h : find? key d = some value) :
    (key, value) ∈ d := by
  induction d with
  | nil => simp [find?] at h
  | cons e d ih =>
    obtain ⟨k, v⟩ := e
    rw [find?] at h
    split at h
    · next hk =>
      obtain rfl : v = value := Option.some.inj h
      exact hk ▸ List.mem_cons_self
    · exact List.mem_cons_of_mem _ (ih h)

end Dict

namespace Query

/-- The last fragment of a name. -/
def Document.fragment? (d : Document) (name : String) : Option (Ref Fragment) :=
  (d.definitions.refs.filterMap (Ref.filterMap Definition.fragment?)).reverse.find?
    (·.value.name = name)

theorem Document.find?_fragments (d : Document) (name : String) :
    Dict.find? name d.fragments = d.fragment? name := by
  rw [fragments, Dict.find?_ofList, fragment?, ← List.map_reverse, List.find?_map,
    Option.map_map]
  exact Option.map_id_fun ▸ rfl

theorem Document.name_of_fragment? {d : Document} {name : String} {f : Ref Fragment}
    (h : d.fragment? name = some f) : f.value.name = name := by
  simpa using List.find?_some h

/-! ### Reachable fragments -/

section Spreads

variable (fragment? : String → Option (Ref Fragment))

/-- Some selections **spread** a fragment: it is named by a spread among them, at any depth, or by
one in a fragment that they spread. -/
inductive Spreads (items : List Selection) : String → Prop
  | direct {name : String} (h : name ∈ Selection.spreadsList items) : Spreads items name
  | through {name other : String} {f : Ref Fragment} (h : Spreads items name)
      (hf : fragment? name = some f) (hother : other ∈ f.value.spreads) : Spreads items other

/-- Everything that is spread is defined, and nothing that is spread spreads itself. -/
structure Expandable (items : List Selection) : Prop where
  defined : ∀ name, Spreads fragment? items name → ∃ f, fragment? name = some f
  acyclic : ∀ name f, Spreads fragment? items name → fragment? name = some f →
    ¬ Spreads fragment? f.value.selections.items name

variable {fragment?} {items items' : List Selection} {name other : String}

theorem Spreads.mono (h : Spreads fragment? items name)
    (hsub : Selection.spreadsList items ⊆ Selection.spreadsList items') :
    Spreads fragment? items' name := by
  induction h with
  | direct h => exact .direct (hsub h)
  | through _ hf hother ih => exact .through ih hf hother

theorem Selection.spreadsList_append (items items' : List Selection) :
    spreadsList (items ++ items') = spreadsList items ++ spreadsList items' := by
  induction items with
  | nil => rfl
  | cons s items ih => rw [List.cons_append, spreadsList, spreadsList, ih, List.append_assoc]

theorem Spreads.append_left (h : Spreads fragment? items name) :
    Spreads fragment? (items ++ items') name :=
  h.mono (Selection.spreadsList_append items items' ▸ List.subset_append_left _ _)

theorem Spreads.append_right (h : Spreads fragment? items' name) :
    Spreads fragment? (items ++ items') name :=
  h.mono (Selection.spreadsList_append items items' ▸ List.subset_append_right _ _)

/-- What a spread fragment spreads is spread. -/
theorem Spreads.trans {f : Ref Fragment} (h : Spreads fragment? items name)
    (hf : fragment? name = some f)
    (hother : Spreads fragment? f.value.selections.items other) :
    Spreads fragment? items other := by
  induction hother with
  | direct hmem => exact .through h hf hmem
  | through _ hf' hmem ih => exact .through ih hf' hmem

/-- What is spread below the first selection or among the others is all that is spread. -/
theorem Spreads.cons {s : Selection} (h : Spreads fragment? (s :: items) name) :
    Spreads fragment? [s] name ∨ Spreads fragment? items name := by
  induction h with
  | direct h =>
    rw [Selection.spreadsList, List.mem_append] at h
    refine h.imp (fun h => .direct ?_) .direct
    simpa [Selection.spreadsList] using h
  | through _ hf hother ih => exact ih.imp (.through · hf hother) (.through · hf hother)

/-- A spread spreads its fragment and what that spreads. -/
theorem Spreads.of_spread {n : String} {ds : Block Directive} {f : Ref Fragment}
    (h : Spreads fragment? [.spread n ds] name) (hf : fragment? n = some f) :
    name = n ∨ Spreads fragment? f.value.selections.items name := by
  induction h with
  | direct h => exact .inl (by simpa [Selection.spreadsList, Selection.spreads] using h)
  | through _ hf' hother ih =>
    rcases ih with rfl | ih
    · obtain rfl := Option.some.inj (hf.symm.trans hf')
      exact .inr (.direct hother)
    · exact .inr (.through ih hf' hother)

theorem Expandable.mono (h : Expandable fragment? items')
    (hsub : Selection.spreadsList items ⊆ Selection.spreadsList items') :
    Expandable fragment? items :=
  ⟨fun name hname => h.defined name (hname.mono hsub),
    fun name f hname => h.acyclic name f (hname.mono hsub)⟩

theorem Expandable.cons {s : Selection} (hs : Expandable fragment? [s])
    (hitems : Expandable fragment? items) : Expandable fragment? (s :: items) := by
  refine ⟨fun name hname => ?_, fun name f hname => ?_⟩
  · exact hname.cons.elim (hs.defined name) (hitems.defined name)
  · exact hname.cons.elim (hs.acyclic name f) (hitems.acyclic name f)

/-- A spread is expandable if its fragment is: a fragment that spreads itself would be among those
that it spreads. -/
theorem Expandable.spread {f : Ref Fragment} {ds : Block Directive} (hf : fragment? name = some f)
    (h : Expandable fragment? f.value.selections.items) :
    Expandable fragment? [.spread name ds] := by
  refine ⟨fun n hn => ?_, fun n g hn hg hself => ?_⟩
  · rcases hn.of_spread hf with rfl | hn
    · exact ⟨f, hf⟩
    · exact h.defined n hn
  · rcases hn.of_spread hf with rfl | hn
    · obtain rfl := Option.some.inj (hf.symm.trans hg)
      exact h.acyclic n f hself hf hself
    · exact h.acyclic n g hn hg hself

end Spreads

/-! ### Replacing spreads -/

section Inlines

variable (fragment? : String → Option (Ref Fragment))

/-- The selections with every spread **replaced** by the selections of its fragment, in which spreads
are replaced as well. -/
inductive Inlines : List Selection → List Selection → Prop
  | nil : Inlines [] []
  | field {f : Field} {b : Block Selection} {items rest rest' : List Selection}
      (hb : Inlines b.items items) (hrest : Inlines rest rest') :
      Inlines (.field f b :: rest) (.field f ⟨b.label, items⟩ :: rest')
  | inline {t : Option String} {ds : Block Directive} {b : Block Selection}
      {items rest rest' : List Selection} (hb : Inlines b.items items)
      (hrest : Inlines rest rest') :
      Inlines (.inline t ds b :: rest) (.inline t ds ⟨b.label, items⟩ :: rest')
  | spread {name : String} {ds : Block Directive} {f : Ref Fragment}
      {items rest rest' : List Selection} (hf : fragment? name = some f)
      (hitems : Inlines f.value.selections.items items) (hrest : Inlines rest rest') :
      Inlines (.spread name ds :: rest) (items ++ rest')

variable {fragment?} {items inlined inlined' : List Selection}

theorem Inlines.append {items' : List Selection} (h : Inlines fragment? items inlined)
    (h' : Inlines fragment? items' inlined') :
    Inlines fragment? (items ++ items') (inlined ++ inlined') := by
  induction h with
  | nil => exact h'
  | field hb _ _ ih => exact .field hb ih
  | inline hb _ _ ih => exact .inline hb ih
  | spread hf hitems _ _ ih =>
    rw [List.append_assoc]
    exact .spread hf hitems ih

/-- Selections have at most one inlining. -/
theorem Inlines.unique (h : Inlines fragment? items inlined)
    (h' : Inlines fragment? items inlined') : inlined = inlined' := by
  induction h generalizing inlined' with
  | nil =>
    cases h'
    rfl
  | field _ _ ihb ihrest =>
    cases h' with
    | field hb hrest => rw [ihb hb, ihrest hrest]
  | inline _ _ ihb ihrest =>
    cases h' with
    | inline hb hrest => rw [ihb hb, ihrest hrest]
  | spread hf _ _ ihitems ihrest =>
    cases h' with
    | spread hf' hitems hrest =>
      obtain rfl := Option.some.inj (hf.symm.trans hf')
      rw [ihitems hitems, ihrest hrest]

/-- **What has an inlining is expandable**: all that it spreads is defined, and nothing of that
spreads itself, since the inlining would contain itself. -/
theorem Inlines.expandable (h : Inlines fragment? items inlined) :
    Expandable fragment? items := by
  induction h with
  | nil =>
    have hnone : ∀ name, ¬ Spreads fragment? [] name := by
      intro name h
      induction h with
      | direct h => simp [Selection.spreadsList] at h
      | through _ _ _ ih => exact ih
    exact ⟨fun name h => absurd h (hnone name), fun name f h => absurd h (hnone name)⟩
  | field _ _ ihb ihrest =>
    refine .cons (ihb.mono ?_) ihrest
    simp [Selection.spreadsList, Selection.spreads]
  | inline _ _ ihb ihrest =>
    refine .cons (ihb.mono ?_) ihrest
    simp [Selection.spreadsList, Selection.spreads]
  | spread hf _ _ ihitems ihrest => exact .cons (.spread hf ihitems) ihrest

end Inlines

/-! ### Nested fields -/

/-- Among some selections there are `n` fields **nested** inside one another. -/
inductive Nested : List Selection → Nat → Prop
  | none (items : List Selection) : Nested items 0
  | field {items : List Selection} {f : Field} {b : Block Selection} {n : Nat}
      (hmem : .field f b ∈ items) (h : Nested b.items n) : Nested items (n + 1)
  | inline {items : List Selection} {t : Option String} {ds : Block Directive}
      {b : Block Selection} {n : Nat} (hmem : .inline t ds b ∈ items) (h : Nested b.items n) :
      Nested items n

section Nested

variable {items items' : List Selection} {n : Nat}

theorem Nested.mono (h : Nested items n) (hsub : items ⊆ items') : Nested items' n := by
  cases h with
  | none => exact .none _
  | field hmem h => exact .field (hsub hmem) h
  | inline hmem h => exact .inline (hsub hmem) h

theorem nested_append : Nested (items ++ items') n ↔ Nested items n ∨ Nested items' n := by
  constructor
  · intro h
    cases h with
    | none => exact .inl (.none _)
    | field hmem h => exact (List.mem_append.mp hmem).imp (.field · h) (.field · h)
    | inline hmem h => exact (List.mem_append.mp hmem).imp (.inline · h) (.inline · h)
  · rintro (h | h)
    · exact h.mono (List.subset_append_left _ _)
    · exact h.mono (List.subset_append_right _ _)

theorem nested_nil : Nested [] n ↔ n = 0 := by
  refine ⟨fun h => ?_, fun h => h ▸ .none _⟩
  cases h with
  | none => rfl
  | field hmem => simp at hmem
  | inline hmem => simp at hmem

theorem nested_field {f : Field} {b : Block Selection} :
    Nested [.field f b] n ↔ n = 0 ∨ ∃ m, n = m + 1 ∧ Nested b.items m := by
  constructor
  · intro h
    cases h with
    | none => exact .inl rfl
    | field hmem h =>
      obtain ⟨rfl, rfl⟩ : _ = f ∧ _ = b := by simpa using hmem
      exact .inr ⟨_, rfl, h⟩
    | inline hmem => simp at hmem
  · rintro (rfl | ⟨m, rfl, h⟩)
    · exact .none _
    · exact .field List.mem_cons_self h

theorem nested_inline {t : Option String} {ds : Block Directive} {b : Block Selection} :
    Nested [.inline t ds b] n ↔ Nested b.items n := by
  refine ⟨fun h => ?_, .inline List.mem_cons_self⟩
  cases h with
  | none => exact .none _
  | field hmem => simp at hmem
  | inline hmem h =>
    obtain ⟨rfl, rfl, rfl⟩ : _ = t ∧ _ = ds ∧ _ = b := by simpa using hmem
    exact h

end Nested

/-! ### Depth -/

section HasDepth

variable (fragment? : String → Option (Ref Fragment))

/-- The **depth** of some selections: the largest number of fields that are nested inside one another
once the spreads are replaced. -/
def HasDepth (items : List Selection) (d : Nat) : Prop :=
  ∃ inlined, Inlines fragment? items inlined ∧ IsGreatest {n | Nested inlined n} d

variable {fragment?} {items items' : List Selection} {d d' : Nat}

theorem HasDepth.nil : HasDepth fragment? [] 0 :=
  ⟨[], .nil, .none _, fun _ h => Nat.le_of_eq (nested_nil.mp h)⟩

theorem HasDepth.append (h : HasDepth fragment? items d) (h' : HasDepth fragment? items' d') :
    HasDepth fragment? (items ++ items') (max d d') := by
  obtain ⟨inlined, hinlines, hmem, hle⟩ := h
  obtain ⟨inlined', hinlines', hmem', hle'⟩ := h'
  refine ⟨_, hinlines.append hinlines', nested_append.mpr ?_, fun n hn => ?_⟩
  · rcases Nat.le_total d d' with hd | hd
    · rw [Nat.max_eq_right hd]
      exact .inr hmem'
    · rw [Nat.max_eq_left hd]
      exact .inl hmem
  · rcases nested_append.mp hn with hn | hn
    · exact Nat.le_trans (hle hn) (Nat.le_max_left _ _)
    · exact Nat.le_trans (hle' hn) (Nat.le_max_right _ _)

theorem HasDepth.field {f : Field} {b : Block Selection} (h : HasDepth fragment? b.items d) :
    HasDepth fragment? [.field f b] (d + 1) := by
  obtain ⟨inlined, hinlines, hmem, hle⟩ := h
  refine ⟨_, .field hinlines .nil, nested_field.mpr (.inr ⟨d, rfl, hmem⟩), fun n hn => ?_⟩
  rcases nested_field.mp hn with rfl | ⟨m, rfl, hm⟩
  · exact Nat.zero_le _
  · exact Nat.succ_le_succ (hle hm)

theorem HasDepth.inline {t : Option String} {ds : Block Directive} {b : Block Selection}
    (h : HasDepth fragment? b.items d) : HasDepth fragment? [.inline t ds b] d := by
  obtain ⟨inlined, hinlines, hmem, hle⟩ := h
  exact ⟨_, .inline hinlines .nil, nested_inline.mpr hmem, fun n hn => hle (nested_inline.mp hn)⟩

theorem HasDepth.spread {name : String} {ds : Block Directive} {f : Ref Fragment}
    (hf : fragment? name = some f) (h : HasDepth fragment? f.value.selections.items d) :
    HasDepth fragment? [.spread name ds] d := by
  obtain ⟨inlined, hinlines, hgreatest⟩ := h
  refine ⟨inlined ++ [], .spread hf hinlines .nil, ?_⟩
  rw [List.append_nil]
  exact hgreatest

end HasDepth

/-! ### Nodes and their identities -/

namespace Selection

mutual

/-- The selections below a selection, each before those below it. -/
def inner : Selection → List Handle
  | .field _ ⟨label, items⟩ => innerList label 0 items
  | .spread .. => []
  | .inline _ _ ⟨label, items⟩ => innerList label 0 items
termination_by structural selection => selection

/-- The selections from a position of a block on, each before those below it. -/
def innerList (label : Nat) : Nat → List Selection → List Handle
  | _, [] => []
  | i, selection :: rest =>
    ⟨⟨label, i⟩, .selection selection⟩ :: (selection.inner ++ innerList label (i + 1) rest)
termination_by structural _ items => items

end

end Selection

/-- The selections below a node, each before those below it. -/
def Element.inner (e : Element) : List Handle :=
  Selection.innerList e.selections.label 0 e.selections.items

theorem Element.inner_selection (s : Selection) : (Element.selection s).inner = s.inner := by
  cases s <;> rfl

/-- A node and the selections below it. -/
def Handle.within (h : Handle) : List Handle :=
  h :: h.value.inner

theorem Selection.innerList_eq (label i : Nat) (items : List Selection) :
    innerList label i items = (items.mapIdx fun j s =>
      (⟨⟨label, i + j⟩, .selection s⟩ : Handle)).flatMap Handle.within := by
  induction items generalizing i with
  | nil => rfl
  | cons s items ih =>
    rw [innerList, ih, List.mapIdx_cons, List.flatMap_cons, Handle.within, Element.inner_selection,
      Nat.add_zero, List.cons_append]
    simp only [Nat.add_assoc, Nat.add_comm 1, Nat.add_zero]

/-- The selections below a node are its own and those below them. -/
theorem Element.inner_eq (e : Element) :
    e.inner = (selectionHandles e.selections).flatMap Handle.within := by
  have hhandles : (e.selections.items.mapIdx fun j s =>
      (⟨⟨e.selections.label, 0 + j⟩, .selection s⟩ : Handle)) = selectionHandles e.selections := by
    apply List.ext_getElem <;> simp [selectionHandles, Block.handles, Block.refs, Ref.map]
  rw [inner, Selection.innerList_eq, hhandles]

mutual

/-- What lies below a node that lies below a selection lies below that selection. -/
theorem Selection.inner_subset {h : Handle} :
    ∀ s : Selection, h ∈ s.inner → h.value.inner ⊆ s.inner
  | .field _ ⟨label, items⟩ => innerList_subset label 0 items
  | .spread .. => fun hmem => absurd hmem List.not_mem_nil
  | .inline _ _ ⟨label, items⟩ => innerList_subset label 0 items

theorem Selection.innerList_subset {h : Handle} (label i : Nat) :
    ∀ items : List Selection, h ∈ innerList label i items →
      h.value.inner ⊆ innerList label i items
  | [] => fun hmem => absurd hmem List.not_mem_nil
  | s :: items => by
    intro hmem j hj
    rw [innerList] at hmem ⊢
    rcases List.mem_cons.mp hmem with rfl | hmem
    · rw [Element.inner_selection] at hj
      exact List.mem_cons_of_mem _ (List.mem_append_left _ hj)
    · rcases List.mem_append.mp hmem with hmem | hmem
      · exact List.mem_cons_of_mem _ (List.mem_append_left _ (inner_subset s hmem hj))
      · exact List.mem_cons_of_mem _
          (List.mem_append_right _ (innerList_subset label (i + 1) items hmem hj))

end

/-- An operation, the fragments that count, and all selections below them. -/
def Document.nodes (d : Document) (operation : Ref Operation) : List Handle :=
  (operation.ofOperation :: d.fragments.map fun e => e.2.ofFragment).flatMap Handle.within

/-- The selections of a node are among the nodes if it is one of them. -/
theorem Document.selections_mem_nodes {d : Document} {operation : Ref Operation} {h m : Handle}
    (hh : h ∈ d.nodes operation) (hm : m ∈ selectionHandles h.value.selections) :
    m ∈ d.nodes operation := by
  obtain ⟨root, hroot, hwithin⟩ := List.mem_flatMap.mp hh
  have hinner : m ∈ h.value.inner := by
    rw [Element.inner_eq]
    exact List.mem_flatMap.mpr ⟨m, hm, List.mem_cons_self⟩
  refine List.mem_flatMap.mpr ⟨root, hroot, List.mem_cons_of_mem _ ?_⟩
  rcases List.mem_cons.mp hwithin with rfl | hwithin
  · exact hinner
  · exact Selection.innerList_subset _ _ _ hwithin hinner

/-- The fragments that count are among the nodes. -/
theorem Document.fragment_mem_nodes {d : Document} (operation : Ref Operation) {name : String}
    {f : Ref Fragment} (hf : Dict.find? name d.fragments = some f) :
    f.ofFragment ∈ d.nodes operation := by
  refine List.mem_flatMap.mpr ⟨f.ofFragment, List.mem_cons_of_mem _ ?_, List.mem_cons_self⟩
  exact List.mem_map.mpr ⟨(name, f), Dict.mem_of_find? hf, rfl⟩

/-- **No node is shared** between two places of an operation and of the fragments that count. -/
def Document.Unshared (d : Document) (operation : Ref Operation) : Prop :=
  ((d.nodes operation).map Ref.id).Nodup

end Query

end Arborist
