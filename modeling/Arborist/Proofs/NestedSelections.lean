import Arborist.Proofs.Inlining
import Mathlib

/-!
# Selections nested in one another

The nodes below a node as a tree that is listed from the top and from left to right
(`Handle.within`), and what spreads there are in it.

* `SpreadIn` says that a spread stands among some selections, **nested** in whatever fields and inline
  fragments. `spreadIn_iff` compares this with the list of names that is read off the selections.
* `Handle.perm_inner`: every node but the topmost one is a selection of one node.
* `Coherent` says that one place of storage holds one node.
* `firstMet` is what a search that passes over known places meets for the first time. Nothing is
  passed over for good (`mem_firstMet_or_met`), and where no node is shared nothing is passed over at
  all (`firstMet_of_nodup`).
-/

namespace Arborist.Query

/-! ### Spreads -/

/-- A spread of a fragment **stands among** some selections, or in a field or an inline fragment
among them. -/
inductive SpreadIn (name : String) : List Selection → Prop
  | here {items : List Selection} {ds : Block Directive} (h : .spread name ds ∈ items) :
      SpreadIn name items
  | field {items : List Selection} {f : Field} {b : Block Selection} (hmem : .field f b ∈ items)
      (h : SpreadIn name b.items) : SpreadIn name items
  | inline {items : List Selection} {t : Option String} {ds : Block Directive}
      {b : Block Selection} (hmem : .inline t ds b ∈ items) (h : SpreadIn name b.items) :
      SpreadIn name items

section SpreadIn

variable {name : String} {items items' : List Selection}

theorem SpreadIn.mono (h : SpreadIn name items) (hsub : items ⊆ items') : SpreadIn name items' := by
  cases h with
  | here h => exact .here (hsub h)
  | field hmem h => exact .field (hsub hmem) h
  | inline hmem h => exact .inline (hsub hmem) h

theorem Selection.mem_spreadsList {s : Selection} (hs : s ∈ items) (hname : name ∈ s.spreads) :
    name ∈ spreadsList items := by
  induction items with
  | nil => exact absurd hs List.not_mem_nil
  | cons t items ih =>
    rw [spreadsList, List.mem_append]
    rcases List.mem_cons.mp hs with rfl | hs
    · exact .inl hname
    · exact .inr (ih hs)

mutual

theorem Selection.spreadIn_of_mem : ∀ s : Selection, name ∈ s.spreads → SpreadIn name [s]
  | .field _ ⟨_, items⟩ => fun h => .field List.mem_cons_self (spreadIn_of_mem_list items h)
  | .spread _ _ => fun h => .here (by rw [List.mem_singleton.mp h]; exact List.mem_cons_self)
  | .inline _ _ ⟨_, items⟩ => fun h => .inline List.mem_cons_self (spreadIn_of_mem_list items h)

theorem Selection.spreadIn_of_mem_list :
    ∀ items : List Selection, name ∈ spreadsList items → SpreadIn name items
  | [] => fun h => absurd h List.not_mem_nil
  | s :: items => fun h => (List.mem_append.mp h).elim
      (fun h => (spreadIn_of_mem s h).mono (List.cons_subset_cons s (List.nil_subset items)))
      fun h => (spreadIn_of_mem_list items h).mono (List.subset_cons_self s items)

end

/-- The names that are read off some selections are those of the spreads among them. -/
theorem spreadIn_iff : SpreadIn name items ↔ name ∈ Selection.spreadsList items := by
  refine ⟨fun h => ?_, Selection.spreadIn_of_mem_list items⟩
  induction h with
  | here h => exact Selection.mem_spreadsList h List.mem_cons_self
  | field hmem _ ih => exact Selection.mem_spreadsList hmem ih
  | inline hmem _ ih => exact Selection.mem_spreadsList hmem ih

mutual

/-- What spreads a selection has is seen from the nodes in it. -/
theorem Selection.filterMap_spread? (id : NodeId) : ∀ s : Selection,
    (Handle.within ⟨id, .selection s⟩).filterMap (·.value.spread?) = s.spreads
  | .field _ ⟨label, items⟩ => filterMap_spread?_list label 0 items
  | .spread .. => rfl
  | .inline _ _ ⟨label, items⟩ => filterMap_spread?_list label 0 items

theorem Selection.filterMap_spread?_list (label i : Nat) : ∀ items : List Selection,
    (innerList label i items).filterMap (·.value.spread?) = spreadsList items
  | [] => rfl
  | s :: items => by
    rw [innerList, ← List.cons_append, List.filterMap_append, spreadsList,
      filterMap_spread?_list label (i + 1) items, ← filterMap_spread? ⟨label, i⟩ s,
      Handle.within, Element.inner_selection]

end

theorem Fragment.filterMap_spread? (f : Ref Fragment) :
    f.ofFragment.within.filterMap (·.value.spread?) = f.value.spreads :=
  Selection.filterMap_spread?_list _ _ _

end SpreadIn

/-! ### The nodes below a node -/

/-- The selections of a node, without their locations. -/
theorem map_located_selections (h : Handle) :
    (selectionChildren h).located.map Prod.snd = selectionHandles h.value.selections := by
  rw [Children.map_located]
  simp [selectionChildren, Children.flatten]

namespace Handle

/-- The selections of a node lie within it. -/
theorem selections_subset (h : Handle) : selectionHandles h.value.selections ⊆ h.within := by
  intro n hn
  rw [within, Element.inner_eq]
  exact List.mem_cons_of_mem _ (List.mem_flatMap.mpr ⟨n, hn, List.mem_cons_self⟩)

/-- What lies below a node within another one lies within that. -/
theorem within_subset {h n : Handle} (hn : n ∈ h.within) : n.within ⊆ h.within := by
  rcases List.mem_cons.mp hn with rfl | hn
  · exact List.Subset.refl _
  · exact List.cons_subset.mpr ⟨List.mem_cons_of_mem _ hn,
      fun m hm => List.mem_cons_of_mem _ (Selection.innerList_subset _ _ _ hn hm)⟩

/-- The selections of a node have fewer nodes below them than it has. -/
theorem length_within_lt {h n : Handle} (hn : n ∈ selectionHandles h.value.selections) :
    n.within.length < h.within.length := by
  obtain ⟨before, after, hsplit⟩ := List.append_of_mem hn
  rw [within.eq_def h, Element.inner_eq, hsplit, List.flatMap_append, List.flatMap_cons]
  simp only [List.length_cons, List.length_append]
  omega

/-- **Every node but the topmost one is a selection of one node.** -/
theorem perm_inner (h : Handle) :
    (h.within.flatMap fun n => selectionHandles n.value.selections).Perm h.value.inner := by
  -- by induction on the number of nodes
  generalize hlength : h.within.length = length
  induction length using Nat.strongRecOn generalizing h with
  | ind length ih =>
    have hbelow : (h.value.inner.flatMap fun n => selectionHandles n.value.selections).Perm
        ((selectionHandles h.value.selections).flatMap fun n => n.value.inner) := by
      rw [Element.inner_eq, List.flatMap_assoc]
      exact List.Perm.flatMap_left _ fun n hn => ih _ (hlength ▸ length_within_lt hn) n rfl
    have hpure : (selectionHandles h.value.selections).flatMap (fun n => [n]) =
        selectionHandles h.value.selections := List.flatMap_singleton' _
    rw [within, List.flatMap_cons, Element.inner_eq h.value]
    rw [Element.inner_eq] at hbelow
    refine (hbelow.append_left _).trans ?_
    nth_rewrite 1 [← hpure]
    exact List.flatMap_append_perm _ _ _

end Handle

mutual

theorem Selection.length_inner : ∀ s : Selection, s.inner.length + 1 = s.size
  | .field _ ⟨label, items⟩ => by
    rw [inner, size, length_innerList label 0 items, Nat.add_comm]
  | .spread .. => rfl
  | .inline _ _ ⟨label, items⟩ => by
    rw [inner, size, length_innerList label 0 items, Nat.add_comm]

theorem Selection.length_innerList (label i : Nat) : ∀ items : List Selection,
    (innerList label i items).length = sizeList items
  | [] => rfl
  | s :: items => by
    rw [innerList, sizeList, List.length_cons, List.length_append, ← length_inner s,
      length_innerList label (i + 1) items]
    omega

end

/-- The size of a node is the number of nodes in it. -/
theorem Handle.length_within (h : Handle) :
    h.within.length = 1 + Selection.sizeList h.value.selections.items := by
  rw [within, List.length_cons, Element.inner, Selection.length_innerList, Nat.add_comm]

/-! ### Places of storage -/

/-- One place holds **one node**: nodes with the same identity are the same. That is so of whatever is
stored; it is only said here because the nodes are given with their places. -/
def Coherent (nodes : List Handle) : Prop :=
  ∀ a ∈ nodes, ∀ b ∈ nodes, a.id = b.id → a = b

/-- Nodes that are all in different places are coherent. -/
theorem Coherent.of_nodup {nodes : List Handle} (h : (nodes.map Ref.id).Nodup) : Coherent nodes :=
  fun _ ha _ hb hid => List.inj_on_of_nodup_map h ha hb hid

/-- The nodes of a list that are **met for the first time**, if some places are known from before. -/
def firstMet : List NodeId → List Handle → List Handle
  | _, [] => []
  | met, h :: rest => if h.id ∈ met then firstMet met rest else h :: firstMet (h.id :: met) rest

section FirstMet

variable {met : List NodeId} {nodes nodes' : List Handle} {h : Handle}

theorem firstMet_cons_met (hmet : h.id ∈ met) (nodes : List Handle) :
    firstMet met (h :: nodes) = firstMet met nodes :=
  if_pos hmet

theorem firstMet_cons_new (hnew : h.id ∉ met) (nodes : List Handle) :
    firstMet met (h :: nodes) = h :: firstMet (h.id :: met) nodes :=
  if_neg hnew

/-- What was met, after some more nodes. -/
def metAfter (met : List NodeId) (nodes : List Handle) : List NodeId :=
  ((firstMet met nodes).map Ref.id).reverse ++ met

theorem firstMet_append (met : List NodeId) (nodes nodes' : List Handle) :
    firstMet met (nodes ++ nodes') = firstMet met nodes ++ firstMet (metAfter met nodes) nodes' := by
  induction nodes generalizing met with
  | nil => rfl
  | cons h nodes ih =>
    rw [List.cons_append]
    by_cases hmet : h.id ∈ met
    · rw [firstMet_cons_met hmet, firstMet_cons_met hmet, ih, metAfter, metAfter,
        firstMet_cons_met hmet]
    · rw [firstMet_cons_new hmet, firstMet_cons_new hmet, ih, metAfter, metAfter,
        firstMet_cons_new hmet, List.map_cons, List.reverse_cons, List.append_assoc]
      rfl

theorem metAfter_append (met : List NodeId) (nodes nodes' : List Handle) :
    metAfter met (nodes ++ nodes') = metAfter (metAfter met nodes) nodes' := by
  rw [metAfter, firstMet_append, List.map_append, List.reverse_append, List.append_assoc,
    ← metAfter, ← metAfter]

theorem mem_of_mem_firstMet (hmem : h ∈ firstMet met nodes) : h ∈ nodes := by
  induction nodes generalizing met with
  | nil => exact hmem
  | cons n nodes ih =>
    by_cases hmet : n.id ∈ met
    · rw [firstMet_cons_met hmet] at hmem
      exact List.mem_cons_of_mem _ (ih hmem)
    · rw [firstMet_cons_new hmet] at hmem
      exact (List.mem_cons.mp hmem).elim (fun heq => heq ▸ List.mem_cons_self)
        fun hmem => List.mem_cons_of_mem _ (ih hmem)

/-- **Nothing is passed over for good**: every place was known, or its node is met. -/
theorem mem_firstMet_or_met (hmem : h ∈ nodes) :
    h.id ∈ met ∨ ∃ n ∈ firstMet met nodes, n.id = h.id := by
  induction nodes generalizing met with
  | nil => exact absurd hmem List.not_mem_nil
  | cons n nodes ih =>
    by_cases hmet : n.id ∈ met
    · rw [firstMet_cons_met hmet]
      rcases List.mem_cons.mp hmem with rfl | hmem
      · exact .inl hmet
      · exact ih hmem
    · rw [firstMet_cons_new hmet]
      rcases List.mem_cons.mp hmem with rfl | hmem
      · exact .inr ⟨h, List.mem_cons_self, rfl⟩
      · have hrest : h.id ∈ n.id :: met ∨ ∃ m ∈ firstMet (n.id :: met) nodes, m.id = h.id := ih hmem
        rcases hrest with hid | ⟨m, hm, hid⟩
        · exact (List.mem_cons.mp hid).symm.imp id fun hid => ⟨n, List.mem_cons_self, hid.symm⟩
        · exact .inr ⟨m, List.mem_cons_of_mem _ hm, hid⟩

theorem mem_metAfter_iff {i : NodeId} :
    i ∈ metAfter met nodes ↔ i ∈ met ∨ ∃ n ∈ nodes, n.id = i := by
  rw [metAfter, List.mem_append, List.mem_reverse, List.mem_map, or_comm]
  refine ⟨Or.imp_right fun ⟨n, hn, hid⟩ => ⟨n, mem_of_mem_firstMet hn, hid⟩, ?_⟩
  rintro (hmet | ⟨n, hn, rfl⟩)
  · exact .inl hmet
  · exact mem_firstMet_or_met hn

theorem firstMet_eq_nil (hmet : ∀ n ∈ nodes, n.id ∈ met) : firstMet met nodes = [] := by
  induction nodes with
  | nil => rfl
  | cons n nodes ih =>
    rw [firstMet_cons_met (hmet n List.mem_cons_self)]
    exact ih fun m hm => hmet m (List.mem_cons_of_mem _ hm)

/-- Where no node is shared, **nothing is passed over**. -/
theorem firstMet_of_nodup (hnodup : (nodes.map Ref.id).Nodup) (hnew : ∀ n ∈ nodes, n.id ∉ met) :
    firstMet met nodes = nodes := by
  induction nodes generalizing met with
  | nil => rfl
  | cons n nodes ih =>
    obtain ⟨hapart, hnodup⟩ := List.nodup_cons.mp hnodup
    rw [firstMet_cons_new (hnew n List.mem_cons_self), ih hnodup fun m hm hid => ?_]
    rcases List.mem_cons.mp hid with hid | hid
    · exact hapart (hid ▸ List.mem_map_of_mem hm)
    · exact hnew m (List.mem_cons_of_mem _ hm) hid

/-- Among coherent nodes, what is met for the first time in a list is all that is in the list. -/
theorem Coherent.mem_firstMet_iff (hcoherent : Coherent nodes) :
    h ∈ firstMet [] nodes ↔ h ∈ nodes := by
  refine ⟨mem_of_mem_firstMet, fun hmem => ?_⟩
  obtain ⟨n, hn, hid⟩ := (mem_firstMet_or_met hmem).resolve_left List.not_mem_nil
  exact hcoherent n (mem_of_mem_firstMet hn) h hmem hid ▸ hn

end FirstMet

end Arborist.Query
