import Arborist.Batch
import Mathlib

/-!
# Splicing the edits of one parent

`Batch.spliceAll` works through the edits of one parent in the order of their positions and corrects
every index by a running shift. This file says what comes out, without any shift: the child at a
location is replaced by its **slot**, that is the nodes put in front of it, the child itself or its
replacement unless it is deleted, and the nodes put behind it.

* The edits are sorted **stably** (`inOrder_filter`), so the edits of one kind at one location keep
  the order of the batch.
* Roles do not interfere (`spliceAll_eq_of_weave`): the edits of a role see its own list and its own
  shift only, which `weave` runs apart from the other roles.
* In one list the edits of an index form a **block**. A block works on what was made of the children
  before it, which it **piles up** (`weave_pile`): the first deletion takes away the child of the
  index, and every further deletion takes the nearest node in front of it.
* With at most one replacement and one deletion, a block turns one child into its slot
  (`pile_of_sparing`). `spliceAll_inOrder` puts the blocks and the roles together.
-/

namespace Arborist

variable {N M : Type}

/-! ### Children by location -/

namespace Children

/-- The child at a location. -/
def at? (c : Children N) (l : Location) : Option N :=
  (c.get? l.role).bind fun list => list[l.index]?

/-- Replaces every child by a list of its own, and keeps roles and order. -/
def spread (f : Location → N → List M) (c : Children N) : Children M :=
  ⟨c.groups.map fun g => (g.1, (g.2.mapIdx fun i child => f ⟨g.1, i⟩ child).flatten)⟩

@[simp] theorem roles_spread (f : Location → N → List M) (c : Children N) :
    (c.spread f).roles = c.roles := by
  simp [roles, spread]

/-- Lists that are changed role by role are looked up in the lists as they were. -/
theorem lookup_map (f : Role → List N → List M) (r : Role) (gs : List (Role × List N)) :
    lookup r (gs.map fun g => (g.1, f g.1 g.2)) = (lookup r gs).map (f r) := by
  induction gs with
  | nil => rfl
  | cons g gs ih =>
    obtain ⟨s, list⟩ := g
    by_cases hs : s = r
    · simp [lookup, hs]
    · simp [lookup, hs, ih]

theorem get?_spread (f : Location → N → List M) (c : Children N) (r : Role) :
    (c.spread f).get? r =
      (c.get? r).map fun list => (list.mapIdx fun i child => f ⟨r, i⟩ child).flatten :=
  lookup_map (fun r list => (list.mapIdx fun i child => f ⟨r, i⟩ child).flatten) r c.groups

theorem lookup_eq_some_of_mem {gs : List (Role × List N)} (h : (gs.map Prod.fst).Nodup)
    {r : Role} {list : List N} (hg : (r, list) ∈ gs) : lookup r gs = some list := by
  induction gs with
  | nil => simp at hg
  | cons g rest ih =>
    obtain ⟨s, old⟩ := g
    rw [List.map_cons, List.nodup_cons] at h
    rcases List.mem_cons.mp hg with heq | hrest
    · cases heq
      simp [lookup]
    · have hne : s ≠ r := by
        rintro rfl
        exact h.1 (List.mem_map.mpr ⟨_, hrest, rfl⟩)
      simp [lookup, hne, ih h.2 hrest]

theorem get?_of_mem {c : Children N} (h : c.roles.Nodup) {r : Role} {list : List N}
    (hg : (r, list) ∈ c.groups) : c.get? r = some list :=
  lookup_eq_some_of_mem h hg

theorem mem_groups_of_get? {c : Children N} {r : Role} {list : List N}
    (h : c.get? r = some list) : (r, list) ∈ c.groups := by
  obtain ⟨gs⟩ := c
  simp only [get?] at h
  induction gs with
  | nil => simp [lookup] at h
  | cons g rest ih =>
    obtain ⟨s, old⟩ := g
    by_cases hs : s = r
    · simp only [lookup, hs, if_true, Option.some.injEq] at h
      simp [hs, h]
    · simp only [lookup, hs, if_false] at h
      exact List.mem_cons_of_mem _ (ih h)

theorem mem_roles_of_get? {c : Children N} {r : Role} {list : List N}
    (h : c.get? r = some list) : r ∈ c.roles :=
  List.mem_map_of_mem (mem_groups_of_get? h)

/-- Replacing the list of a role that is there keeps the roles as they are. -/
theorem roles_insert_of_get? {c : Children N} {r : Role} {old : List N}
    (h : c.get? r = some old) (list : List N) : (c.insert r list).roles = c.roles := by
  rw [roles_insert, if_pos (mem_roles_of_get? h)]

/-- Children with distinct roles are given by their roles and the list under each of them. -/
theorem eq_of_lists {c : Children N} (h : c.roles.Nodup) {lists : Role → List N}
    (hl : ∀ r list, c.get? r = some list → list = lists r) :
    c = ⟨c.roles.map fun r => (r, lists r)⟩ := by
  obtain ⟨gs⟩ := c
  simp only [roles, List.map_map, mk.injEq]
  conv_lhs => rw [← List.map_id gs]
  refine List.map_congr_left fun g hg => ?_
  simp only [id, Function.comp, ← hl g.1 g.2 (get?_of_mem h hg)]

end Children

namespace Batch

/-! ### The order of the edits of one parent -/

/-- The index that an edit is sorted by. -/
def indexOf (z : Zipper N) : Nat :=
  (z.location?.map Location.index).getD 0

theorem comesBefore_iff {y z : Zipper N} :
    y.comesBefore z = true ↔ indexOf y < indexOf z ∨
      indexOf y = indexOf z ∧ y.edit.precedence ≤ z.edit.precedence := by
  simp [Zipper.comesBefore, indexOf]

/-- Edits of one place and one kind are not moved past each other. -/
theorem insertInOrder_filter {p : Zipper N → Bool}
    (hp : ∀ y z, p y = true → p z = true → y.comesBefore z = true) (z : Zipper N)
    (zs : List (Zipper N)) : (insertInOrder z zs).filter p = (z :: zs).filter p := by
  induction zs with
  | nil => rfl
  | cons y ys ih =>
    rw [insertInOrder]
    split
    · rfl
    · rename_i hyz
      rw [List.filter_cons, ih]
      by_cases hz : p z = true
      · have hy : p y = false := by
          by_contra hy
          exact hyz (hp z y hz (by simpa using hy))
        simp [hz, hy]
      · simp [List.filter_cons, hz]

/-- Sorting is **stable**: it keeps the order of the edits that compare equal. -/
theorem inOrder_filter {p : Zipper N → Bool}
    (hp : ∀ y z, p y = true → p z = true → y.comesBefore z = true) (zs : List (Zipper N)) :
    (inOrder zs).filter p = zs.filter p := by
  induction zs with
  | nil => rfl
  | cons z zs ih =>
    rw [inOrder, insertInOrder_filter hp, List.filter_cons, List.filter_cons, ih]

theorem insertInOrder_perm (z : Zipper N) (zs : List (Zipper N)) :
    (insertInOrder z zs).Perm (z :: zs) := by
  induction zs with
  | nil => exact .rfl
  | cons y ys ih =>
    rw [insertInOrder]
    split
    · exact .rfl
    · exact (ih.cons y).trans (.swap z y ys)

/-- Sorting only changes the order. -/
theorem inOrder_perm (zs : List (Zipper N)) : (inOrder zs).Perm zs := by
  induction zs with
  | nil => exact .rfl
  | cons z zs ih => exact (insertInOrder_perm z _).trans (ih.cons z)

@[simp] theorem mem_inOrder {y : Zipper N} {zs : List (Zipper N)} : y ∈ inOrder zs ↔ y ∈ zs :=
  (inOrder_perm zs).mem_iff

@[simp] theorem length_inOrder (zs : List (Zipper N)) : (inOrder zs).length = zs.length :=
  (inOrder_perm zs).length_eq

/-- Sorting sorts. -/
theorem inOrder_pairwise (zs : List (Zipper N)) :
    (inOrder zs).Pairwise fun y z => y.comesBefore z = true := by
  induction zs with
  | nil => exact .nil
  | cons z zs ih =>
    rw [inOrder]
    generalize inOrder zs = ys at ih
    induction ys with
    | nil => simp [insertInOrder]
    | cons y ys ih' =>
      rw [List.pairwise_cons] at ih
      rw [insertInOrder]
      split
      · rename_i hzy
        refine List.pairwise_cons.mpr ⟨fun x hx => ?_, List.pairwise_cons.mpr ih⟩
        rcases List.mem_cons.mp hx with rfl | hx
        · exact hzy
        · have hyx := ih.1 x hx
          rw [comesBefore_iff] at hzy hyx ⊢
          omega
      · rename_i hzy
        refine List.pairwise_cons.mpr ⟨fun x hx => ?_, ih' ih.2⟩
        rcases List.mem_cons.mp ((insertInOrder_perm z ys).mem_iff.mp hx) with rfl | hx
        · rw [comesBefore_iff] at hzy ⊢
          omega
        · exact ih.1 x hx

/-! ### One role apart from the others -/

/-- An edit of a list of children, by its index in the list. -/
structure Patch (N : Type) where
  index : Nat
  edit : Edit
  node : N

/-- Applies edits to one list, each moved by the shift so far. -/
def weave (list : List N) (shift : Int) : List (Patch N) → Option (List N)
  | [] => some list
  | p :: ps =>
    let i := p.edit.target p.index shift
    if 0 ≤ i ∧ i < p.edit.places list.length then
      weave (p.edit.applyAt list i.toNat p.node) (shift + p.edit.growth) ps
    else
      none

/-- One edit at a place inside the list. -/
theorem weave_cons {list : List N} {shift : Int} {i place : Nat} {edit : Edit} {node : N}
    (htarget : edit.target i shift = place) (hinside : place < edit.places list.length)
    (ps : List (Patch N)) :
    weave list shift (⟨i, edit, node⟩ :: ps) =
      weave (edit.applyAt list place node) (shift + edit.growth) ps := by
  have hroom : 0 ≤ (place : Int) ∧ (place : Int) < edit.places list.length :=
    ⟨Int.natCast_nonneg _, Int.ofNat_lt.mpr hinside⟩
  simp only [weave, htarget, if_pos hroom, Int.toNat_natCast]

/-- An edit as seen from the list of one role. -/
def patch? (r : Role) (z : Zipper N) : Option (Patch N) :=
  match z.location? with
  | some l => if l.role = r then some ⟨l.index, z.edit, z.node⟩ else none
  | none => none

theorem patch?_eq_some {r : Role} {z : Zipper N} {p : Patch N} (h : patch? r z = some p) :
    ∃ l, z.location? = some l ∧ l.role = r ∧ p = ⟨l.index, z.edit, z.node⟩ := by
  rw [patch?] at h
  split at h
  · rename_i l hl
    split at h
    · exact ⟨l, hl, ‹_›, by simpa using h.symm⟩
    · simp at h
  · simp at h

/-- The edits of one role. -/
def patches (r : Role) (zs : List (Zipper N)) : List (Patch N) :=
  zs.filterMap (patch? r)

/-- **Roles do not interfere**: if every list can be woven by itself, all edits together succeed and
give the woven lists. -/
theorem spliceAll_eq_of_weave {c : Children N} (hc : c.roles.Nodup) {shift : Role → Int}
    {zs : List (Zipper N)} (lists : Role → List N)
    (hz : ∀ z ∈ zs, ∃ l list, z.location? = some l ∧ c.get? l.role = some list)
    (hw : ∀ r list, c.get? r = some list →
      weave list (shift r) (patches r zs) = some (lists r)) :
    spliceAll c shift zs = .ok ⟨c.roles.map fun r => (r, lists r)⟩ := by
  induction zs generalizing c shift with
  | nil =>
    rw [spliceAll, ← Children.eq_of_lists hc fun r list hr => ?_]
    simpa [patches, weave] using hw r list hr
  | cons z zs ih =>
    obtain ⟨l, list, hl, hlist⟩ := hz z List.mem_cons_self
    have hown : patches l.role (z :: zs) = ⟨l.index, z.edit, z.node⟩ :: patches l.role zs := by
      simp [patches, patch?, hl]
    have hother : ∀ r, r ≠ l.role → patches r (z :: zs) = patches r zs := by
      intro r hr
      simp [patches, patch?, hl, Ne.symm hr]
    have hwl := hw l.role list hlist
    rw [hown, weave] at hwl
    split at hwl
    · rename_i hi
      have hroles := Children.roles_insert_of_get? hlist
        (z.edit.applyAt list (z.edit.target l.index (shift l.role)).toNat z.node)
      rw [← hroles]
      simp only [spliceAll, hl, Children.splice, hlist]
      rw [if_pos hi]
      refine ih (by rw [hroles]; exact hc) ?_ ?_
      · intro y hy
        obtain ⟨m, other, hm, hother⟩ := hz y (List.mem_cons_of_mem _ hy)
        by_cases hlm : l.role = m.role
        · exact ⟨m, _, hm, by rw [Children.get?_insert, if_pos hlm]⟩
        · exact ⟨m, other, hm, by rw [Children.get?_insert, if_neg hlm, hother]⟩
      · intro r other hr
        rw [Children.get?_insert] at hr
        by_cases hlr : l.role = r
        · subst hlr
          rw [if_pos rfl, Option.some.injEq] at hr
          rw [grow, if_pos rfl, ← hr]
          exact hwl
        · rw [if_neg hlr] at hr
          rw [grow, if_neg (Ne.symm hlr), ← hother r (Ne.symm hlr)]
          exact hw r other hr
    · simp at hwl

/-! ### Lengths -/

theorem growth_bounds (edit : Edit) : -1 ≤ edit.growth ∧ edit.growth ≤ 1 := by
  cases edit <;> decide

/-- An edit makes a list longer by its growth. -/
theorem length_applyAt {edit : Edit} {list : List N} {i : Nat} (hi : i < edit.places list.length)
    (node : N) : ((edit.applyAt list i node).length : Int) = list.length + edit.growth := by
  cases edit with
  | replace => simp [Edit.applyAt, Edit.growth]
  | delete =>
    have hi : i < list.length := hi
    simp only [Edit.applyAt, Edit.growth, List.length_eraseIdx, if_pos hi]
    omega
  | insertBefore | insertAfter =>
    have hi : i < list.length + 1 := hi
    simp only [Edit.applyAt, Edit.growth]
    rw [List.length_insertIdx_of_le_length (by omega)]
    push_cast
    ring

/-- Weaving makes a list longer by the growth of the edits. -/
theorem length_weave {list out : List N} {shift : Int} {ps : List (Patch N)}
    (h : weave list shift ps = some out) :
    (out.length : Int) = list.length + (ps.map fun p => p.edit.growth).sum := by
  induction ps generalizing list shift with
  | nil =>
    obtain rfl : list = out := by simpa [weave] using h
    simp
  | cons p ps ih =>
    rw [weave] at h
    split at h
    · rename_i hroom
      rw [ih h, length_applyAt (by omega), List.map_cons, List.sum_cons, Int.add_assoc]
    · simp at h

theorem sum_growth_bounds (ps : List (Patch N)) :
    -(ps.length : Int) ≤ (ps.map fun p => p.edit.growth).sum ∧
      (ps.map fun p => p.edit.growth).sum ≤ ps.length := by
  induction ps with
  | nil => simp
  | cons p ps ih =>
    have := growth_bounds p.edit
    rw [List.map_cons, List.sum_cons, List.length_cons]
    push_cast
    omega

/-! ### Blocks of edits at one index -/

/-- The nodes that the edits of one kind carry at an index, in order. -/
def patchedAt (ps : List (Patch N)) (i : Nat) (edit : Edit) : List N :=
  (ps.filter fun p => p.index = i ∧ p.edit = edit).map Patch.node

/-- What stands in place of the child at an index. -/
def patched (ps : List (Patch N)) (i : Nat) (child : N) : List N :=
  patchedAt ps i .insertBefore ++
    (if (patchedAt ps i .delete).isEmpty then [(patchedAt ps i .replace).headD child] else []) ++
    patchedAt ps i .insertAfter

theorem signedWord_natCast {n : Nat} (h : n < 9223372036854775808) : signedWord n = n := by
  rw [signedWord, Int.bmod_eq_of_le] <;> omega

theorem weave_append (list : List N) (shift : Int) (ps qs : List (Patch N)) :
    weave list shift (ps ++ qs) =
      (weave list shift ps).bind fun l =>
        weave l (shift + (ps.map fun p => p.edit.growth).sum) qs := by
  induction ps generalizing list shift with
  | nil => simp [weave]
  | cons p ps ih =>
    simp only [List.cons_append, weave]
    split
    · rw [ih, List.map_cons, List.sum_cons, Int.add_assoc]
    · rfl

theorem insertIdx_length_append (front back : List N) (n : N) :
    (front ++ back).insertIdx front.length n = front ++ n :: back := by
  induction front with
  | nil => rfl
  | cons a front ih => simpa using ih

/-- Inserts at one index are put one behind the other, at the place where the first one goes. -/
theorem weave_inserts {edit : Edit} (hedit : edit.inserts = true) (i : Nat)
    (front nodes back : List N) {shift : Int}
    (hplace : (front.length : Int) = i + shift + if edit = .insertAfter then 1 else 0)
    (hfits : (front ++ nodes ++ back).length < 9223372036854775808) :
    weave (front ++ back) shift (nodes.map fun n => ⟨i, edit, n⟩) =
      some (front ++ nodes ++ back) := by
  induction nodes generalizing front shift with
  | nil => simp [weave]
  | cons n nodes ih =>
    have htarget : edit.target i shift = front.length := by
      rw [Edit.target, ← hplace]
      refine signedWord_natCast (Nat.lt_of_le_of_lt ?_ hfits)
      simp only [List.length_append]
      omega
    have happly : edit.applyAt (front ++ back) front.length n = (front ++ [n]) ++ back := by
      rw [List.append_assoc, List.singleton_append]
      cases edit with
      | replace | delete => simp [Edit.inserts] at hedit
      | insertBefore | insertAfter => exact insertIdx_length_append front back n
    have hgrowth : edit.growth = 1 := by
      cases edit <;> first | rfl | simp [Edit.inserts] at hedit
    have hrest : weave ((front ++ [n]) ++ back) (shift + edit.growth)
        (nodes.map fun n => ⟨i, edit, n⟩) = some ((front ++ [n]) ++ nodes ++ back) :=
      ih (front ++ [n])
        (by rw [hgrowth, List.length_append, List.length_singleton]; push_cast; omega)
        (by simpa using hfits)
    have hinside : front.length < edit.places (front ++ back).length := by
      rw [Edit.places, if_pos hedit, List.length_append]
      omega
    rw [List.map_cons, weave_cons htarget hinside, happly, hrest]
    simp

/-- A list that is sorted by a number from zero to three falls into four parts. -/
theorem eq_append_filter_of_sorted {α : Type} (rank : α → Nat) {l : List α}
    (hsorted : l.Pairwise fun a b => rank a ≤ rank b) (hrank : ∀ a ∈ l, rank a ≤ 3) :
    l = l.filter (rank · = 0) ++ (l.filter (rank · = 1) ++
      (l.filter (rank · = 2) ++ l.filter (rank · = 3))) := by
  induction l with
  | nil => rfl
  | cons a l ih =>
    rw [List.pairwise_cons] at hsorted
    have hl := ih hsorted.2 fun b hb => hrank b (List.mem_cons_of_mem _ hb)
    -- whatever has a smaller rank than the head is not in the tail
    have hnone : ∀ k, k < rank a → l.filter (rank · = k) = [] := by
      intro k hk
      refine List.filter_eq_nil_iff.mpr fun b hb => ?_
      have := hsorted.1 b hb
      simp only [decide_eq_true_eq]
      omega
    have ha := hrank a List.mem_cons_self
    obtain h | h | h | h : rank a = 0 ∨ rank a = 1 ∨ rank a = 2 ∨ rank a = 3 := by omega
    all_goals
      simp only [List.filter_cons, h]
      simp [hnone, h] at hl ⊢
      exact hl

theorem filter_eq_map_patchedAt (ps : List (Patch N)) (i : Nat) (edit : Edit) :
    (ps.filter fun p => p.index = i ∧ p.edit = edit) =
      (patchedAt ps i edit).map fun n => ⟨i, edit, n⟩ := by
  rw [patchedAt, List.map_map]
  conv_lhs => rw [← List.map_id (ps.filter _)]
  refine List.map_congr_left fun p hp => ?_
  simp only [List.mem_filter, decide_eq_true_eq] at hp
  obtain ⟨-, rfl, rfl⟩ := hp
  rfl

/-- The sorted edits of one index, kind by kind. -/
theorem block_eq {ps : List (Patch N)} {i : Nat} (hi : ∀ p ∈ ps, p.index = i)
    (hsorted : ps.Pairwise fun p q => p.edit.precedence ≤ q.edit.precedence) :
    ps = (patchedAt ps i .replace).map (⟨i, .replace, ·⟩) ++
      ((patchedAt ps i .insertBefore).map (⟨i, .insertBefore, ·⟩) ++
        ((patchedAt ps i .delete).map (⟨i, .delete, ·⟩) ++
          (patchedAt ps i .insertAfter).map (⟨i, .insertAfter, ·⟩))) := by
  have hkind : ∀ (edit : Edit) k, (∀ e : Edit, e.precedence = k ↔ e = edit) →
      ps.filter (·.edit.precedence = k) = (patchedAt ps i edit).map (⟨i, edit, ·⟩) := by
    intro edit k hk
    rw [← filter_eq_map_patchedAt]
    refine List.filter_congr fun p hp => ?_
    simp [hi p hp, hk]
  have h := eq_append_filter_of_sorted (fun p : Patch N => p.edit.precedence) hsorted
    (fun p _ => by cases p.edit <;> simp [Edit.precedence])
  rwa [hkind .replace 0 (by rintro (_ | _ | _ | _) <;> simp [Edit.precedence]),
    hkind .insertBefore 1 (by rintro (_ | _ | _ | _) <;> simp [Edit.precedence]),
    hkind .delete 2 (by rintro (_ | _ | _ | _) <;> simp [Edit.precedence]),
    hkind .insertAfter 3 (by rintro (_ | _ | _ | _) <;> simp [Edit.precedence])] at h

/-- Of several replacements of a child the last one stands. -/
theorem weave_replacements (i : Nat) (front back nodes : List N) (x : N) {shift : Int}
    (hplace : (front.length : Int) = i + shift) (hfits : front.length < 2 ^ 63) :
    weave (front ++ x :: back) shift (nodes.map (⟨i, .replace, ·⟩)) =
      some (front ++ nodes.getLastD x :: back) := by
  induction nodes generalizing x with
  | nil => rfl
  | cons n nodes ih =>
    have htarget : Edit.replace.target i shift = front.length := by
      simp only [Edit.target, reduceCtorEq, if_false, Int.add_zero]
      rw [← hplace, signedWord_natCast hfits]
    have hinside : front.length < Edit.replace.places (front ++ x :: back).length := by
      simp only [Edit.places, Edit.inserts, Bool.false_eq_true, if_false, List.length_append,
        List.length_cons]
      omega
    have happly : Edit.replace.applyAt (front ++ x :: back) front.length n =
        front ++ n :: back := by
      simp [Edit.applyAt]
    rw [List.map_cons, weave_cons htarget hinside, happly, List.getLastD_cons, Edit.growth,
      Int.add_zero]
    exact ih n

/-- Deletions take away one node after the other, from the end of what is in front. -/
theorem weave_deletions (i : Nat) (front back nodes : List N) {shift : Int}
    (hplace : (front.length : Int) = i + shift + 1) (hmany : nodes.length ≤ front.length)
    (hfits : front.length < 2 ^ 63) :
    weave (front ++ back) shift (nodes.map (⟨i, .delete, ·⟩)) =
      some (front.rdrop nodes.length ++ back) := by
  induction nodes generalizing front shift with
  | nil => simp [weave]
  | cons n nodes ih =>
    obtain ⟨init, y, rfl⟩ : ∃ init y, front = init ++ [y] :=
      (List.eq_nil_or_concat' front).resolve_left (List.ne_nil_of_length_pos (by
        rw [List.length_cons] at hmany
        omega))
    simp only [List.length_append, List.length_cons, List.length_nil] at hplace hmany hfits
    have htarget : Edit.delete.target i shift = init.length := by
      have hsum : (i : Int) + shift = init.length := by
        push_cast at hplace
        omega
      simp only [Edit.target, reduceCtorEq, if_false, Int.add_zero]
      rw [hsum, signedWord_natCast (by omega)]
    have hinside : init.length < Edit.delete.places (init ++ [y] ++ back).length := by
      simp only [Edit.places, Edit.inserts, Bool.false_eq_true, if_false, List.length_append,
        List.length_singleton]
      omega
    have happly : Edit.delete.applyAt (init ++ [y] ++ back) init.length n = init ++ back := by
      simp [Edit.applyAt, List.eraseIdx_append]
    rw [List.map_cons, weave_cons htarget hinside, happly,
      ih init (by simp only [Edit.growth]; omega) (by omega) (by omega), List.length_cons,
      List.rdrop_concat_succ]

/-- By how much a block of one kind moves what follows. -/
theorem sum_growth_map (i : Nat) (edit : Edit) (nodes : List N) :
    ((nodes.map fun n => (⟨i, edit, n⟩ : Patch N)).map fun p => p.edit.growth).sum =
      nodes.length * edit.growth := by
  induction nodes with
  | nil => simp
  | cons n nodes ih =>
    simp only [List.map_cons, List.sum_cons, List.length_cons] at ih ⊢
    rw [ih]
    push_cast
    rw [Int.add_mul, Int.one_mul, Int.add_comm]

/-- The edits of one index are **sparing** if they hold at most one replacement and one deletion. -/
def Sparing (ps : List (Patch N)) (i : Nat) : Prop :=
  (patchedAt ps i .replace).length ≤ 1 ∧ (patchedAt ps i .delete).length ≤ 1

/-- What the edits of an index make of everything up to its child: what they put in front of it and
what they put in its place is piled up, the deletions take away from the end of the pile, and the
rest comes on top. -/
def pile (ps : List (Patch N)) (i : Nat) (front : List N) (x : N) : List N :=
  (front ++ patchedAt ps i .insertBefore ++ [(patchedAt ps i .replace).getLastD x]).rdrop
    (patchedAt ps i .delete).length ++ patchedAt ps i .insertAfter

/-- **Edits of one index pile up**, and every deletion takes away the nearest node. -/
theorem weave_pile {ps : List (Patch N)} {i : Nat} (hi : ∀ p ∈ ps, p.index = i)
    (hsorted : ps.Pairwise fun p q => p.edit.precedence ≤ q.edit.precedence)
    (front : List N) (x : N) (back : List N)
    (hmany : (patchedAt ps i .delete).length ≤
      front.length + (patchedAt ps i .insertBefore).length + 1)
    (hfits : (front ++ x :: back).length + ps.length < 2 ^ 63) :
    weave (front ++ x :: back) (front.length - i) ps = some (pile ps i front x ++ back) := by
  have hlen := congrArg List.length (block_eq hi hsorted)
  simp only [List.length_append, List.length_map, List.length_cons] at hlen hfits
  conv_lhs => rw [block_eq hi hsorted]
  rw [weave_append, weave_replacements i front back _ x (by omega) (by omega)]
  simp only [Option.bind_some]
  rw [weave_append, weave_inserts rfl i _ _ _
    (by rw [sum_growth_map]; simp only [Edit.growth, reduceCtorEq, if_false]; omega)
    (by simp only [List.length_append, List.length_cons]; omega)]
  simp only [Option.bind_some]
  rw [List.append_cons, weave_append, weave_deletions i _ back _
    (by rw [sum_growth_map, sum_growth_map]; simp only [Edit.growth, List.length_append,
      List.length_singleton]; omega)
    (by simp only [List.length_append, List.length_singleton]; omega)
    (by simp only [List.length_append, List.length_singleton]; omega)]
  simp only [Option.bind_some]
  rw [weave_inserts rfl i, pile]
  · rw [sum_growth_map, sum_growth_map, sum_growth_map]
    simp only [List.rdrop, List.length_take, List.length_append, List.length_singleton, Edit.growth,
      if_true]
    omega
  · simp only [List.rdrop, List.length_take, List.length_append, List.length_singleton]
    omega

/-- The pile of a sparing block is what was there and the slot of the child. -/
theorem pile_of_sparing {ps : List (Patch N)} {i : Nat} (hsparing : Sparing ps i) (front : List N)
    (x : N) : pile ps i front x = front ++ patched ps i x := by
  obtain ⟨hreplace, hdelete⟩ := hsparing
  have hlast : (patchedAt ps i .replace).getLastD x = (patchedAt ps i .replace).headD x := by
    match patchedAt ps i .replace, hreplace with
    | [], _ => rfl
    | [n], _ => rfl
  rw [pile, patched, hlast]
  match patchedAt ps i .delete, hdelete with
  | [], _ => simp
  | [n], _ =>
    rw [List.length_singleton, List.rdrop_concat_succ]
    simp

/-! ### All blocks of a list -/

/-- The edits of the least index of a sorted list come first. -/
theorem eq_append_of_le_index {ps : List (Patch N)} {i : Nat}
    (hsorted : ps.Pairwise fun p q => p.index ≤ q.index) (hi : ∀ p ∈ ps, i ≤ p.index) :
    ps = ps.filter (·.index = i) ++ ps.filter (i < ·.index) := by
  induction ps with
  | nil => rfl
  | cons p ps ih =>
    rw [List.pairwise_cons] at hsorted
    have hrest := ih hsorted.2 fun q hq => hi q (List.mem_cons_of_mem _ hq)
    rcases Nat.eq_or_lt_of_le (hi p List.mem_cons_self) with h | h
    · simpa [List.filter_cons, ← h] using hrest
    · have hlater : ∀ q ∈ ps, i < q.index := fun q hq =>
        Nat.lt_of_lt_of_le h (hsorted.1 q hq)
      have hnone : ps.filter (·.index = i) = [] :=
        List.filter_eq_nil_iff.mpr fun q hq => by
          have := hlater q hq
          simp only [decide_eq_true_eq]
          omega
      have hall : ps.filter (i < ·.index) = ps :=
        List.filter_eq_self.mpr fun q hq => by simpa using hlater q hq
      simp [Nat.ne_of_gt h, h, hnone, hall]

/-- Edits come by index, and by precedence at one index. -/
def Patch.Before (p q : Patch N) : Prop :=
  p.index < q.index ∨ p.index = q.index ∧ p.edit.precedence ≤ q.edit.precedence

theorem patchedAt_filter_index (ps : List (Patch N)) (i : Nat) (edit : Edit) :
    patchedAt (ps.filter (·.index = i)) i edit = patchedAt ps i edit := by
  simp only [patchedAt, List.filter_filter]
  congr 1
  refine List.filter_congr fun p _ => ?_
  by_cases h : p.index = i <;> simp [h]

theorem patchedAt_filter_lt (ps : List (Patch N)) {i j : Nat} (hij : i < j) (edit : Edit) :
    patchedAt (ps.filter (i < ·.index)) j edit = patchedAt ps j edit := by
  simp only [patchedAt, List.filter_filter]
  congr 1
  refine List.filter_congr fun p _ => ?_
  by_cases h : p.index = j <;> simp [h]
  omega

/-- **The edits of the least index** work on the first child that is left, and they are done before
all others. What is piled up then is no longer than what was there and the edits that were made. -/
theorem weave_first {ps : List (Patch N)} {i : Nat} (hsorted : ps.Pairwise Patch.Before)
    (hi : ∀ p ∈ ps, i ≤ p.index) (front : List N) (x : N) (back : List N)
    (hmany : (patchedAt ps i .delete).length ≤
      front.length + (patchedAt ps i .insertBefore).length + 1)
    (hfits : (front ++ x :: back).length + ps.length < 2 ^ 63) :
    weave (front ++ x :: back) (front.length - i) ps =
        weave (pile ps i front x ++ back) ((pile ps i front x).length - ((i + 1 : Nat) : Int))
          (ps.filter (i < ·.index)) ∧
      (pile ps i front x).length + (ps.filter (i < ·.index)).length ≤
        front.length + 1 + ps.length := by
  have hsplit := eq_append_of_le_index
    (hsorted.imp fun {p q} h => by rcases h with h | h <;> omega) hi
  have hlen := congrArg List.length hsplit
  simp only [List.length_append, List.length_cons] at hlen hfits
  have hindex : ∀ p ∈ ps.filter (·.index = i), p.index = i := fun p hp => by
    simpa using (List.mem_filter.mp hp).2
  have hprec : (ps.filter (·.index = i)).Pairwise
      fun p q => p.edit.precedence ≤ q.edit.precedence :=
    (hsorted.filter _).imp_of_mem fun {p q} hp hq h => by
      have hp := hindex p hp
      have hq := hindex q hq
      rcases h with h | h <;> omega
  have hpile : pile (ps.filter (·.index = i)) i front x = pile ps i front x := by
    simp only [pile, patchedAt_filter_index]
  have hblock := weave_pile hindex hprec front x back
    (by rwa [patchedAt_filter_index, patchedAt_filter_index])
    (by simp only [List.length_append, List.length_cons]; omega)
  rw [hpile] at hblock
  have hgrown := length_weave hblock
  have hgrowth := (sum_growth_bounds (ps.filter (·.index = i))).2
  simp only [List.length_append, List.length_cons] at hgrown
  push_cast at hgrown
  refine ⟨?_, by omega⟩
  conv_lhs => rw [hsplit]
  rw [weave_append, hblock, Option.bind_some]
  congr 1
  push_cast
  omega

/-- A list whose head positions are done: the edits that are left turn the rest into slots. -/
theorem weave_slots {ps : List (Patch N)} (i : Nat) (front back : List N)
    (hsorted : ps.Pairwise Patch.Before)
    (hi : ∀ p ∈ ps, i ≤ p.index ∧ p.index < i + back.length)
    (hsparing : ∀ j, Sparing ps j)
    (hfits : (front ++ back).length + ps.length < 9223372036854775808) :
    weave (front ++ back) (front.length - i) ps =
      some (front ++ (back.mapIdx fun j x => patched ps (i + j) x).flatten) := by
  induction back generalizing front i ps with
  | nil =>
    have hps : ps = [] := List.eq_nil_iff_forall_not_mem.mpr fun p hp => by
      have := hi p hp
      simp only [List.length_nil] at this
      omega
    simp [hps, weave]
  | cons x back ih =>
    -- the block of the first position
    obtain ⟨hfirst, hlength⟩ := weave_first hsorted (fun p hp => (hi p hp).1) front x back
      (Nat.le_trans (hsparing i).2 (by omega)) hfits
    rw [pile_of_sparing (hsparing i)] at hfirst hlength
    -- the other positions
    have hrest := ih (i + 1) (front ++ patched ps i x) (hsorted.filter (i < ·.index))
      (fun p hp => by
        obtain ⟨hp, hlt⟩ := List.mem_filter.mp hp
        have := hi p hp
        simp only [decide_eq_true_eq, List.length_cons] at hlt this
        omega)
      (fun j => ⟨Nat.le_trans (((List.filter_sublist).filter _).map _).length_le (hsparing j).1,
        Nat.le_trans (((List.filter_sublist).filter _).map _).length_le (hsparing j).2⟩)
      (by simp only [List.length_append, List.length_cons] at hlength hfits ⊢; omega)
    rw [hfirst, hrest, List.mapIdx_cons, List.flatten_cons, List.append_assoc]
    congr 4
    refine List.ext_getElem (by simp) fun j _ _ => ?_
    simp only [List.getElem_mapIdx, patched]
    rw [patchedAt_filter_lt ps (by omega), patchedAt_filter_lt ps (by omega),
      patchedAt_filter_lt ps (by omega), patchedAt_filter_lt ps (by omega),
      Nat.add_assoc, Nat.add_comm 1 j]

/-! ### All roles -/

/-- The nodes that the edits of one kind carry at a location, in order. -/
def carriedAt (zs : List (Zipper N)) (l : Location) (edit : Edit) : List N :=
  (zs.filter fun z => z.location? = some l ∧ z.edit = edit).map Zipper.node

/-- The **slot** of a child: what stands in its place once the edits of its location are made. -/
def slot (zs : List (Zipper N)) (l : Location) (child : N) : List N :=
  carriedAt zs l .insertBefore ++
    (if (carriedAt zs l .delete).isEmpty then [(carriedAt zs l .replace).headD child] else []) ++
    carriedAt zs l .insertAfter

theorem patchedAt_patches (zs : List (Zipper N)) (r : Role) (i : Nat) (edit : Edit) :
    patchedAt (patches r zs) i edit = carriedAt zs ⟨r, i⟩ edit := by
  induction zs with
  | nil => rfl
  | cons z zs ih =>
    simp only [patchedAt, patches, carriedAt, List.filterMap_cons, patch?, List.filter_cons] at ih ⊢
    cases hl : z.location? with
    | none => simpa using ih
    | some l =>
      obtain ⟨s, j⟩ := l
      by_cases hs : s = r
      · by_cases hj : j = i ∧ z.edit = edit
        · simpa [hs, hj, List.filter_cons] using ih
        · simpa [hs, hj, List.filter_cons] using ih
      · simpa [hs] using ih

theorem carriedAt_inOrder (zs : List (Zipper N)) (l : Location) (edit : Edit) :
    carriedAt (inOrder zs) l edit = carriedAt zs l edit := by
  rw [carriedAt, inOrder_filter, carriedAt]
  intro y z hy hz
  simp only [decide_eq_true_eq] at hy hz
  rw [comesBefore_iff]
  simp [indexOf, hy, hz]

theorem patches_inOrder_pairwise (zs : List (Zipper N)) (r : Role) :
    (patches r (inOrder zs)).Pairwise Patch.Before := by
  refine (inOrder_pairwise zs).filterMap _ fun y z hyz p hp q hq => ?_
  obtain ⟨l, hl, -, rfl⟩ := patch?_eq_some hp
  obtain ⟨m, hm, -, rfl⟩ := patch?_eq_some hq
  rw [comesBefore_iff] at hyz
  simpa [indexOf, hl, hm, Patch.Before] using hyz

/-- **Splicing gives slots.** Edits of one parent that lie inside its lists, with at most one
replacement and one deletion of a child, replace every child by its slot. The bound is that of
signed machine words. -/
theorem spliceAll_inOrder {c : Children N} (hc : c.roles.Nodup) {zs : List (Zipper N)}
    (hinside : ∀ z ∈ zs, ∃ l child, z.location? = some l ∧ c.at? l = some child)
    (hreplace : ∀ l, (carriedAt zs l .replace).length ≤ 1)
    (hdelete : ∀ l, (carriedAt zs l .delete).length ≤ 1)
    (hfits : ∀ r list, c.get? r = some list → list.length + zs.length < 9223372036854775808) :
    spliceAll c (fun _ => 0) (inOrder zs) = .ok (c.spread (slot zs)) := by
  have hslot : ∀ r list, c.get? r = some list →
      weave list 0 (patches r (inOrder zs)) =
        some (list.mapIdx fun i child => slot zs ⟨r, i⟩ child).flatten := by
    intro r list hr
    have hcount : (patches r (inOrder zs)).length ≤ zs.length := by
      rw [← length_inOrder zs]
      exact List.length_filterMap_le _ _
    have h := weave_slots 0 [] list (patches_inOrder_pairwise zs r)
      (fun p hp => ?_) (fun j => ?_) ?_
    · simpa [patched, slot, patchedAt_patches, carriedAt_inOrder] using h
    · obtain ⟨z, hz, hzp⟩ := List.mem_filterMap.mp hp
      obtain ⟨l, child, hl, hchild⟩ := hinside z (mem_inOrder.mp hz)
      obtain ⟨m, hm, hrole, rfl⟩ := patch?_eq_some hzp
      obtain rfl : l = m := by simpa [hl] using hm
      simp only [Children.at?, hrole, hr, Option.bind_some] at hchild
      obtain ⟨hlt, -⟩ := List.getElem?_eq_some_iff.mp hchild
      exact ⟨Nat.zero_le _, by simpa using hlt⟩
    · rw [Sparing, patchedAt_patches, patchedAt_patches, carriedAt_inOrder, carriedAt_inOrder]
      exact ⟨hreplace _, hdelete _⟩
    · have := hfits r list hr
      simp only [List.nil_append]
      omega
  rw [spliceAll_eq_of_weave hc fun r =>
    (((c.get? r).getD []).mapIdx fun i child => slot zs ⟨r, i⟩ child).flatten]
  · rw [Children.spread, Children.roles, List.map_map]
    refine congrArg (fun gs => Except.ok (⟨gs⟩ : Children N)) (List.map_congr_left fun g hg => ?_)
    simp [Children.get?_of_mem hc (show (g.1, g.2) ∈ c.groups from hg)]
  · intro z hz
    obtain ⟨l, child, hl, hchild⟩ := hinside z (mem_inOrder.mp hz)
    obtain ⟨list, hlist, -⟩ := Option.bind_eq_some_iff.mp hchild
    exact ⟨l, list, hl, hlist⟩
  · intro r list hr
    rw [hslot r list hr, hr, Option.getD_some]

end Batch

end Arborist
