import Arborist.Proofs.Agreement
import Arborist.Proofs.Positions
import Mathlib

/-!
# Expanding a node

A node that was entered is expanded: the contexts of its children are put behind all others, the
node notes where they stand, and they become pending. `State.expand_eq` says so in one equation.
What is proved of walks does not open the definition; it looks the new state up by the lemmas here.

* `expand_self`, `expand_old`, `expand_new`: the node, the other old contexts, and the children.
* `expand_cases`: each context of an expanded state is an old one or that of a child.
* `expand_pending`: what is pending then.
-/

namespace Arborist.Traversal

variable {N A κ : Type} {β : κ → Type}

/-! ### Children and their numbers -/

theorem filterMap_range' {α : Type} {f : Nat → Option α} {n m : Nat} {list : List α}
    (h : ∀ i, i < m → f (n + i) = list[i]?) (hm : m ≤ list.length) :
    (List.range' n m).filterMap f = list.take m := by
  induction m generalizing n list with
  | zero => simp
  | succ m ih =>
    cases list with
    | nil => simp at hm
    | cons a list =>
      have hfirst : f n = some a := by simpa using h 0 (Nat.succ_pos m)
      have hrest : (List.range' (n + 1) m).filterMap f = list.take m := by
        refine ih (fun i hi => ?_) (Nat.le_of_succ_le_succ hm)
        have hnext := h (i + 1) (Nat.succ_lt_succ hi)
        rw [List.getElem?_cons_succ] at hnext
        rw [← hnext]
        congr 1
        omega
      rw [List.range'_succ, List.filterMap_cons, hfirst, List.take_succ_cons, hrest]

/-- Looking up numbered children deals out what is found. -/
theorem filterMap_number {M L : Type} {f : Nat → Option L} (children : Children M) {n : Nat}
    {list : List L} (h : ∀ i, i < list.length → f (n + i) = list[i]?)
    (hlen : list.length = children.flatten.length) :
    (children.number n).filterMap f = children.regroup list := by
  obtain ⟨groups⟩ := children
  simp only [Children.number, Children.filterMap, Children.regroup, Children.mk.injEq]
  simp only [Children.flatten] at hlen
  induction groups generalizing n list with
  | nil => rfl
  | cons g groups ih =>
    obtain ⟨r, items⟩ := g
    rw [List.flatMap_cons, List.length_append] at hlen
    change list.length = items.length + _ at hlen
    have hle : items.length ≤ list.length := by omega
    rw [Children.numberGroups, Children.dealOut, List.map_cons]
    congr 1
    · rw [filterMap_range' (fun i hi => h i (Nat.lt_of_lt_of_le hi hle)) hle]
    · refine ih (fun i hi => ?_) ?_
      · rw [List.length_drop] at hi
        rw [List.getElem?_drop, ← h (items.length + i) (by omega), Nat.add_assoc]
      · rw [List.length_drop]
        omega

theorem flatten_number {M : Type} (children : Children M) (n : Nat) :
    (children.number n).flatten = List.range' n children.flatten.length := by
  obtain ⟨groups⟩ := children
  simp only [Children.number, Children.flatten]
  induction groups generalizing n with
  | nil => rfl
  | cons g groups ih =>
    obtain ⟨r, items⟩ := g
    rw [Children.numberGroups, List.flatMap_cons, List.flatMap_cons, ih, List.length_append,
      List.range'_append_1]

theorem length_located {M : Type} (children : Children M) :
    children.located.length = children.flatten.length := by
  obtain ⟨groups⟩ := children
  simp only [Children.located, Children.flatten, List.length_flatMap, List.length_mapIdx]

theorem map_filterMap {M L K : Type} (ids : Children M) (f : M → Option L) (g : L → K) :
    (ids.filterMap f).map g = ids.filterMap fun i => (f i).map g := by
  obtain ⟨groups⟩ := ids
  simp only [Children.filterMap, Children.map, List.map_map, Children.mk.injEq]
  refine List.map_congr_left fun p _ => ?_
  simp [List.map_filterMap]

theorem mem_flatten_of_located {children : Children N} {p : Location × N}
    (h : p ∈ children.located) : p.2 ∈ children.flatten := by
  simp only [Children.located, List.mem_flatMap, List.mem_mapIdx] at h
  obtain ⟨g, hg, i, hi, rfl⟩ := h
  exact List.mem_flatMap.mpr ⟨g, hg, List.getElem_mem hi⟩

/-! ### What is discovered -/

/-- The children that a node is going to be expanded to. -/
def Plan.below (plan : Plan N A β) (c : Context N A β) : Children N :=
  if c.deleted then .empty else plan.children c.node

/-- The contexts that are discovered below a node. -/
def Plan.found (plan : Plan N A β) (c : Context N A β) (id : Nat) (accumulate : A) :
    List (Context N A β) :=
  (plan.below c).located.map fun p => Context.discover p.2 (some id) (some p.1) accumulate

variable {plan : Plan N A β} {c d : Context N A β} {id : Nat} {accumulate : A}

/-- All that is below a node is among its children. -/
theorem Plan.mem_of_below {p : Location × N} (h : p ∈ (plan.below c).located) :
    p ∈ (plan.children c.node).located := by
  rw [below] at h
  split at h
  · exact absurd h List.not_mem_nil
  · exact h

@[simp] theorem Plan.length_found :
    (plan.found c id accumulate).length = (plan.below c).flatten.length := by
  rw [found, List.length_map, length_located]

theorem Plan.exists_of_mem_found (h : d ∈ plan.found c id accumulate) :
    ∃ p ∈ (plan.below c).located, d = .discover p.2 (some id) (some p.1) accumulate := by
  obtain ⟨p, hp, rfl⟩ := List.mem_map.mp h
  exact ⟨p, hp, rfl⟩

@[simp] theorem Mode.length_schedule (mode : Mode) (parent : Nat) (children : List Nat)
    (pending : List Entry) :
    (mode.schedule parent children pending).length = pending.length + children.length + 1 := by
  cases mode <;> simp [schedule] <;> omega

/-! ### The expanded state -/

namespace State

variable [Identified N] {s : State N A β} {j : Nat}

/-- Nothing comes of expanding an unknown node. -/
theorem expand_of_none (h : s.ledger.arena[id]? = none) (plan : Plan N A β) :
    s.expand plan id = s := by
  rw [expand, h]

/-- Expanding a node that is known. -/
theorem expand_eq (hc : s.ledger.arena[id]? = some c) (plan : Plan N A β) :
    s.expand plan id = { s with
      ledger := { s.ledger with
        arena := (s.ledger.arena ++ (plan.found c id s.accumulate).toArray).modify id fun d =>
          { d with children := some ((plan.below c).number s.ledger.arena.size) } }
      pending := plan.mode.schedule id ((plan.below c).number s.ledger.arena.size).flatten
        s.pending } := by
  rw [State.expand, hc]
  rfl

theorem expand_size (hc : s.ledger.arena[id]? = some c) (plan : Plan N A β) :
    (s.expand plan id).ledger.arena.size =
      s.ledger.arena.size + (plan.below c).flatten.length := by
  rw [expand_eq hc]
  simp

/-- The node itself notes where its children stand. -/
theorem expand_self (hc : s.ledger.arena[id]? = some c) (plan : Plan N A β) :
    (s.expand plan id).ledger.arena[id]? =
      some { c with children := some ((plan.below c).number s.ledger.arena.size) } := by
  rw [expand_eq hc]
  exact Array.getElem?_modify_of_some
    ((Array.getElem?_append_left (Arena.lt_size_of_getElem? hc)).trans hc) _

/-- All other contexts stay as they were. -/
theorem expand_old (plan : Plan N A β) (hj : j < s.ledger.arena.size) (hne : j ≠ id) :
    (s.expand plan id).ledger.arena[j]? = s.ledger.arena[j]? := by
  cases hc : s.ledger.arena[id]? with
  | none => rw [expand_of_none hc]
  | some c =>
    rw [expand_eq hc]
    exact (Array.getElem?_modify ..).trans
      ((if_neg (Ne.symm hne)).trans (Array.getElem?_append_left hj))

/-- The contexts of the children come behind all that there were. -/
theorem expand_new (hc : s.ledger.arena[id]? = some c) (plan : Plan N A β) (i : Nat) :
    (s.expand plan id).ledger.arena[s.ledger.arena.size + i]? =
      (plan.found c id s.accumulate)[i]? := by
  have hid := Arena.lt_size_of_getElem? hc
  rw [expand_eq hc]
  dsimp only
  rw [Array.getElem?_modify, if_neg (by omega), Array.getElem?_append_right (Nat.le_add_right _ _),
    Nat.add_sub_cancel_left, List.getElem?_toArray]

/-- **The contexts of an expanded state**: apart from what it notes about its children, each is an
old one, or it is that of a child and was just discovered. -/
theorem expand_cases (hd : (s.expand plan id).ledger.arena[j]? = some d) :
    (∃ d', s.ledger.arena[j]? = some d' ∧ ∃ children, d = { d' with children }) ∨
      s.ledger.arena.size ≤ j ∧ ∃ c, s.ledger.arena[id]? = some c ∧
        ∃ p ∈ (plan.below c).located, d = .discover p.2 (some id) (some p.1) s.accumulate := by
  rcases Nat.lt_or_ge j s.ledger.arena.size with hj | hj
  · left
    by_cases hne : j = id
    · subst hne
      obtain ⟨c, hc⟩ : ∃ c, s.ledger.arena[j]? = some c := ⟨_, Array.getElem?_eq_getElem hj⟩
      rw [expand_self hc] at hd
      exact ⟨c, hc, _, (Option.some.inj hd).symm⟩
    · rw [expand_old plan hj hne] at hd
      exact ⟨d, hd, d.children, rfl⟩
  · cases hc : s.ledger.arena[id]? with
    | none =>
      rw [expand_of_none hc] at hd
      exact absurd (Arena.lt_size_of_getElem? hd) (Nat.not_lt.mpr hj)
    | some c =>
      obtain ⟨i, rfl⟩ := Nat.exists_eq_add_of_le hj
      rw [expand_new hc] at hd
      exact .inr ⟨hj, c, rfl, Plan.exists_of_mem_found (List.mem_of_getElem? hd)⟩

/-- The children become pending by the numbers of their contexts. -/
theorem expand_pending (hc : s.ledger.arena[id]? = some c) (plan : Plan N A β) :
    (s.expand plan id).pending = plan.mode.schedule id
      (List.range' s.ledger.arena.size (plan.below c).flatten.length) s.pending := by
  rw [expand_eq hc, ← flatten_number]

end State

end Arborist.Traversal
