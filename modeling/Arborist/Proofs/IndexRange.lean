import Arborist.Proofs.DeletedRoot
import Mathlib

/-!
# Which indices are accepted

An index is a word of 64 bits, and the place of an edit is found by reading it as a signed word and
adding a shift and an offset. This file says **for every index** whether an edit is accepted, alone
(`Zipper.moveUp`) or together with edits at other positions of its parent (`Batch.moveUpGroup`):

* An edit that fits (`Zipper.Fits`) is accepted, and it works where it says (`Edit.made`).
* An edit that does not fit is refused, unless its place **comes round** (`Batch.ComesRound`): the
  sum is at least two to the power of 64, and what is left of it is a place inside the list. For a
  single edit this takes a node that is put behind the very last index; in a group any edit can come
  round whose index is so high that the nodes inserted before it carry it over the edge.

At pairwise distinct positions the shift of an edit is its **drift** (`Batch.drift`), the growth of
the edits at smaller indices, whatever the order in which the edits are given. It is at least minus
the index (`neg_index_le_drift`), so no sum gets below zero.
-/

namespace Arborist

variable {σ N : Type}

/-- A list with one **edit made** at the child of an index. -/
def Edit.made (edit : Edit) (list : List N) (i : Nat) (node : N) : List N :=
  match edit with
  | .replace => list.set i node
  | .delete => list.eraseIdx i
  | .insertBefore => list.insertIdx i node
  | .insertAfter => list.insertIdx (i + 1) node

/-- How far behind its index an edit works. -/
def Edit.offset (edit : Edit) : Nat :=
  if edit = .insertAfter then 1 else 0

theorem Edit.applyAt_offset (edit : Edit) (list : List N) (i : Nat) (node : N) :
    edit.applyAt list (i + edit.offset) node = edit.made list i node := by
  cases edit <;> rfl

theorem Edit.target_eq (edit : Edit) (index : Nat) (shift : Int) :
    edit.target index shift = signedWord (index + shift + edit.offset) := by
  cases edit <;> rfl

/-- A sum between two to the power of 63 and three times that is read as what it exceeds two to the
power of 64 by. -/
theorem signedWord_of_ge {x : Int} (hlow : 2 ^ 63 ≤ x) (hhigh : x < 2 ^ 64 + 2 ^ 63) :
    signedWord x = x - 2 ^ 64 := by
  rw [signedWord, Int.bmod_def]
  omega

namespace Batch

/-! ### One place -/

/-- The place of an edit lies **inside** a list of the given length. -/
def Inside (edit : Edit) (index : Nat) (shift length : Int) : Prop :=
  0 ≤ edit.target index shift ∧
    edit.target index shift < length + if edit.inserts then 1 else 0

theorem inside_iff_places (edit : Edit) (index : Nat) (shift : Int) (length : Nat) :
    Inside edit index shift length ↔
      0 ≤ edit.target index shift ∧ edit.target index shift < edit.places length := by
  rw [Inside, Edit.places]
  cases edit.inserts <;> simp

/-- **Where the sum lands.** The length of the list has moved as far as the index, so the shift
cancels out, but for the sums that come round. -/
theorem inside_iff {edit : Edit} {index length : Nat} {shift : Int}
    (hindex : index < 2 ^ 64) (hlow : 0 ≤ index + shift) (hshift : shift < 2 ^ 63)
    (hlength : length + shift < 2 ^ 63) :
    Inside edit index shift (length + shift) ↔
      (index < if edit = .insertBefore then length + 1 else length) ∨
        2 ^ 64 ≤ index + shift + edit.offset := by
  have hoffset : edit.offset ≤ 1 := by cases edit <;> decide
  rw [Inside, Edit.target_eq]
  rcases lt_or_ge (index + shift + edit.offset) (2 ^ 63 : Int) with hsmall | hlarge
  · rw [signedWord_of_lt (by omega) (by omega)]
    cases edit <;> simp only [Edit.offset, Edit.inserts, reduceCtorEq, Bool.false_eq_true, if_true,
      if_false] at hsmall ⊢ <;> omega
  · rw [signedWord_of_ge hlarge (by omega)]
    cases edit <;> simp only [Edit.offset, Edit.inserts, reduceCtorEq, Bool.false_eq_true, if_true,
      if_false] at hlarge ⊢ <;> omega

/-! ### A list of edits at distinct indices -/

/-- The growth of the edits before an index. -/
def growthBefore (ps : List (Patch N)) (i : Nat) : Int :=
  ((ps.filter (·.index < i)).map fun p => p.edit.growth).sum

/-- Edits in the order of their indices succeed exactly if each of them lies inside the list as it
has become by the edits before it. -/
theorem weave_isSome_iff {list : List N} {shift : Int} {ps : List (Patch N)}
    (hsorted : ps.Pairwise fun p q => p.index < q.index) :
    (∃ out, weave list shift ps = some out) ↔ ∀ p ∈ ps,
      Inside p.edit p.index (shift + growthBefore ps p.index)
        (list.length + growthBefore ps p.index) := by
  induction ps generalizing list shift with
  | nil => simp [weave]
  | cons p ps ih =>
    rw [List.pairwise_cons] at hsorted
    -- nothing comes before the first edit, and the first edit comes before all others
    have hfirst : growthBefore (p :: ps) p.index = 0 := by
      have hnone : (p :: ps).filter (·.index < p.index) = [] := by
        refine List.filter_eq_nil_iff.mpr fun q hq => ?_
        rcases List.mem_cons.mp hq with rfl | hq
        · simp
        · have := hsorted.1 q hq
          simp only [decide_eq_true_eq]
          omega
      rw [growthBefore, hnone, List.map_nil, List.sum_nil]
    have hlater : ∀ q ∈ ps, growthBefore (p :: ps) q.index =
        p.edit.growth + growthBefore ps q.index := fun q hq => by
      rw [growthBefore, List.filter_cons_of_pos (by simpa using hsorted.1 q hq), List.map_cons,
        List.sum_cons, growthBefore]
    rw [List.forall_mem_cons, hfirst, Int.add_zero, Int.add_zero, inside_iff_places]
    simp only [weave]
    split
    · rename_i hroom
      rw [ih hsorted.2, length_applyAt (by omega)]
      refine ⟨fun h => ⟨hroom, fun q hq => ?_⟩, fun h q hq => ?_⟩
      · rw [hlater q hq, ← Int.add_assoc, ← Int.add_assoc]
        exact h q hq
      · have hq' := h.2 q hq
        rwa [hlater q hq, ← Int.add_assoc, ← Int.add_assoc] at hq'
    · rename_i hroom
      refine ⟨?_, fun h => absurd h.1 hroom⟩
      rintro ⟨out, hout⟩
      cases hout

/-- There are no more edits at distinct indices before an index than there are indices. -/
theorem length_filter_index_le {ps : List (Patch N)} (hdistinct : (ps.map Patch.index).Nodup)
    (i : Nat) : (ps.filter (·.index < i)).length ≤ i := by
  have hnodup : ((ps.filter (·.index < i)).map Patch.index).Nodup :=
    hdistinct.sublist (List.filter_sublist.map _)
  have hbelow : (ps.filter (·.index < i)).map Patch.index ⊆ List.range i := by
    intro j hj
    obtain ⟨p, hp, rfl⟩ := List.mem_map.mp hj
    exact List.mem_range.mpr (by simpa using (List.mem_filter.mp hp).2)
  simpa using (hnodup.subperm hbelow).length_le

/-! ### The edits of one parent -/

theorem patches_perm (r : Role) {ys zs : List (Zipper N)} (h : ys.Perm zs) :
    (patches r ys).Perm (patches r zs) :=
  h.filterMap _

theorem growthBefore_perm {ps qs : List (Patch N)} (h : ps.Perm qs) (i : Nat) :
    growthBefore ps i = growthBefore qs i :=
  ((h.filter _).map _).sum_eq

theorem length_patches_le (r : Role) (zs : List (Zipper N)) :
    (patches r zs).length ≤ zs.length :=
  List.length_filterMap_le _ _

theorem mem_patches {r : Role} {zs : List (Zipper N)} {p : Patch N} :
    p ∈ patches r zs ↔ ∃ z ∈ zs, ∃ l, z.location? = some l ∧ l.role = r ∧
      p = ⟨l.index, z.edit, z.node⟩ := by
  refine List.mem_filterMap.trans
    (exists_congr fun z => and_congr_right fun _ => ⟨patch?_eq_some, ?_⟩)
  rintro ⟨l, hl, hr, rfl⟩
  simp [patch?, hl, hr]

/-- Edits at distinct positions have distinct indices in each list. -/
theorem patches_index_nodup (r : Role) {zs : List (Zipper N)}
    (hdistinct : (zs.map Zipper.location?).Nodup) : ((patches r zs).map Patch.index).Nodup := by
  rw [List.Nodup, List.pairwise_map] at hdistinct ⊢
  refine hdistinct.filterMap _ fun y z hyz p hp q hq heq => hyz ?_
  obtain ⟨l, hl, hlr, rfl⟩ := patch?_eq_some hp
  obtain ⟨m, hm, hmr, rfl⟩ := patch?_eq_some hq
  obtain ⟨s, i⟩ := l
  obtain ⟨t, j⟩ := m
  obtain rfl : i = j := heq
  obtain rfl : s = t := hlr.trans hmr.symm
  rw [hl, hm]

/-- Edits at distinct positions come by strictly growing indices. -/
theorem patches_inOrder_strict (r : Role) {zs : List (Zipper N)}
    (hdistinct : (zs.map Zipper.location?).Nodup) :
    (patches r (inOrder zs)).Pairwise fun p q => p.index < q.index := by
  have hne := patches_index_nodup r (((inOrder_perm zs).map _).nodup_iff.mpr hdistinct)
  rw [List.Nodup, List.pairwise_map] at hne
  refine (List.Pairwise.and (patches_inOrder_pairwise zs r) hne).imp fun {p q} h => ?_
  obtain ⟨hbefore, hne⟩ := h
  rcases hbefore with h | h
  · exact h
  · exact absurd h.1 hne

/-- Splicing that succeeds has found every role, and has woven every list by itself. -/
theorem weave_of_spliceAll {c c' : Children N} {shift : Role → Int} {zs : List (Zipper N)}
    (h : spliceAll c shift zs = .ok c') :
    (∀ z ∈ zs, ∃ l list, z.location? = some l ∧ c.get? l.role = some list) ∧
      ∀ r list, c.get? r = some list → ∃ out,
        weave list (shift r) (patches r zs) = some out ∧ c'.get? r = some out := by
  induction zs generalizing c shift with
  | nil =>
    obtain rfl : c = c' := Except.ok.inj h
    exact ⟨fun _ hz => absurd hz List.not_mem_nil, fun r list hr => ⟨list, rfl, hr⟩⟩
  | cons z zs ih =>
    rw [spliceAll] at h
    split at h
    · cases h
    · rename_i l hl
      cases hsplice : c.splice l (shift l.role) z.edit z.node with
      | error e =>
        rw [hsplice] at h
        cases h
      | ok d =>
        rw [hsplice] at h
        obtain ⟨list, hlist, hlow, hhigh, rfl⟩ := exists_of_splice hsplice
        obtain ⟨hfound, hwoven⟩ := ih h
        refine ⟨List.forall_mem_cons.mpr ⟨⟨l, list, hl, hlist⟩, fun y hy => ?_⟩,
          fun r old hr => ?_⟩
        · obtain ⟨m, later, hm, hlater⟩ := hfound y hy
          rw [Children.get?_insert] at hlater
          split at hlater
          · exact ⟨m, list, hm, by rw [← ‹l.role = m.role›, hlist]⟩
          · exact ⟨m, later, hm, hlater⟩
        · by_cases hrole : l.role = r
          · subst hrole
            obtain rfl : list = old := Option.some.inj (hlist.symm.trans hr)
            obtain ⟨out, hout, hget⟩ := hwoven l.role _ (by rw [Children.get?_insert, if_pos rfl])
            refine ⟨out, ?_, hget⟩
            rw [grow, if_pos rfl] at hout
            simp only [patches, List.filterMap_cons, patch?, hl, if_true] at hout ⊢
            rw [weave, if_pos ⟨hlow, hhigh⟩]
            exact hout
          · obtain ⟨out, hout, hget⟩ := hwoven r old (by
              rw [Children.get?_insert, if_neg hrole, hr])
            refine ⟨out, ?_, hget⟩
            rw [grow, if_neg (Ne.symm hrole)] at hout
            simpa [patches, patch?, hl, hrole] using hout

/-- **When splicing succeeds**: every role is there, and every list can be woven by itself. -/
theorem exists_spliceAll_iff {c : Children N} (hc : c.roles.Nodup) {shift : Role → Int}
    {zs : List (Zipper N)} :
    (∃ c', spliceAll c shift zs = .ok c') ↔
      (∀ z ∈ zs, ∃ l list, z.location? = some l ∧ c.get? l.role = some list) ∧
        ∀ r list, c.get? r = some list →
          ∃ out, weave list (shift r) (patches r zs) = some out := by
  constructor
  · rintro ⟨c', h⟩
    obtain ⟨hfound, hwoven⟩ := weave_of_spliceAll h
    exact ⟨hfound, fun r list hr => (hwoven r list hr).imp fun _ hout => hout.1⟩
  · rintro ⟨hfound, hwoven⟩
    have hlists : ∀ r, ∃ out, ∀ list, c.get? r = some list →
        weave list (shift r) (patches r zs) = some out := by
      intro r
      cases hr : c.get? r with
      | none => exact ⟨[], by simp⟩
      | some list =>
        obtain ⟨out, hout⟩ := hwoven r list hr
        exact ⟨out, by simpa using hout⟩
    choose lists hlists using hlists
    exact ⟨_, spliceAll_eq_of_weave hc lists hfound hlists⟩

/-! ### Acceptance -/

/-- By how much the edits of a group move the child at a location: the growth of the edits of its
role that have a smaller index. -/
def drift (group : List (Zipper N)) (l : Location) : Int :=
  growthBefore (patches l.role group) l.index

/-- The place of an edit **comes round**: its role is there, and index, drift and offset together
are beyond the words of 64 bits. -/
def ComesRound (group : List (Zipper N)) (c : Children N) (z : Zipper N) : Prop :=
  ∃ l list, z.location? = some l ∧ c.get? l.role = some list ∧
    2 ^ 64 ≤ l.index + drift group l + z.edit.offset

/-- There are fewer deletions before an index than there are indices. -/
theorem neg_index_le_drift {group : List (Zipper N)}
    (hdistinct : (group.map Zipper.location?).Nodup) (l : Location) :
    -(l.index : Int) ≤ drift group l := by
  have hcount := length_filter_index_le (patches_index_nodup l.role hdistinct) l.index
  have hgrowth := (sum_growth_bounds ((patches l.role group).filter (·.index < l.index))).1
  rw [drift, growthBefore]
  omega

/-- An edit is not among those that move it. -/
theorem drift_lt {group : List (Zipper N)} {z : Zipper N} (hz : z ∈ group) {l : Location}
    (hl : z.location? = some l) : drift group l < group.length := by
  have hown : (⟨l.index, z.edit, z.node⟩ : Patch N) ∈ patches l.role group :=
    mem_patches.mpr ⟨z, hz, l, hl, rfl, rfl⟩
  have hfewer : ((patches l.role group).filter (·.index < l.index)).length <
      (patches l.role group).length :=
    List.length_filter_lt_length_iff_exists.mpr ⟨_, hown, by simp⟩
  have hgrowth := (sum_growth_bounds ((patches l.role group).filter (·.index < l.index))).2
  have hcount := length_patches_le l.role group
  rw [drift, growthBefore]
  omega

/-- An index that leaves room for the whole group does not come round. -/
theorem not_comesRound {group : List (Zipper N)} {z : Zipper N} (hz : z ∈ group)
    (hroom : ∀ l, z.location? = some l → l.index + group.length < 2 ^ 64) (c : Children N) :
    ¬ComesRound group c z := by
  rintro ⟨l, list, hl, -, hround⟩
  have hdrift := drift_lt hz hl
  have hindex := hroom l hl
  have hoffset : z.edit.offset ≤ 1 := by cases z.edit <;> decide
  omega

/-- A single edit comes round at the very last index, if it puts a node behind it. -/
theorem comesRound_single_iff {z : Zipper N} {l : Location} (hl : z.location? = some l)
    (hindex : l.index < 2 ^ 64) (c : Children N) :
    ComesRound [z] c z ↔
      (∃ list, c.get? l.role = some list) ∧ z.edit = .insertAfter ∧ l.index = 2 ^ 64 - 1 := by
  have hdrift : drift [z] l = 0 := by
    simp [drift, growthBefore, patches, patch?, hl]
  constructor
  · rintro ⟨m, list, hm, hlist, hround⟩
    obtain rfl : l = m := Option.some.inj (hl.symm.trans hm)
    rw [hdrift] at hround
    refine ⟨⟨list, hlist⟩, ?_⟩
    cases hedit : z.edit <;>
      simp only [hedit, Edit.offset, reduceCtorEq, if_true, if_false, true_and, false_and]
        at hround ⊢ <;> omega
  · rintro ⟨⟨list, hlist⟩, hedit, hlast⟩
    refine ⟨l, list, hl, hlist, ?_⟩
    rw [hdrift, hedit, hlast, Edit.offset, if_pos rfl]
    norm_num

section Acceptance

variable {group : List (Zipper N)} {c : Children N}
  (hdistinct : (group.map Zipper.location?).Nodup)
  (hindex : ∀ z ∈ group, ∀ l, z.location? = some l → l.index < 2 ^ 64)
  (hlists : ∀ r list, c.get? r = some list → list.length + group.length ≤ 2 ^ 63)

include hdistinct hindex hlists

theorem inside_drift_iff {z : Zipper N} (hz : z ∈ group) {l : Location} {list : List N}
    (hl : z.location? = some l) (hlist : c.get? l.role = some list) :
    Inside z.edit l.index (drift group l) (list.length + drift group l) ↔
      z.Fits c ∨ ComesRound group c z := by
  have hlow := neg_index_le_drift hdistinct l
  have hhigh := drift_lt hz hl
  have hlength := hlists _ _ hlist
  rw [inside_iff (hindex z hz l hl) (by omega) (by omega) (by omega)]
  refine or_congr ⟨fun h => ⟨l, list, hl, hlist, h⟩, ?_⟩ ⟨fun h => ⟨l, list, hl, hlist, h⟩, ?_⟩
  · rintro ⟨m, other, hm, hother, h⟩
    obtain rfl : l = m := Option.some.inj (hl.symm.trans hm)
    obtain rfl : list = other := Option.some.inj (hlist.symm.trans hother)
    exact h
  · rintro ⟨m, other, hm, -, h⟩
    obtain rfl : l = m := Option.some.inj (hl.symm.trans hm)
    exact h

/-- Edits at distinct positions can be spliced exactly if each of them fits or comes round. -/
theorem exists_spliceAll_inOrder_iff (hc : c.roles.Nodup) :
    (∃ c', spliceAll c (fun _ => 0) (inOrder group) = .ok c') ↔
      ∀ z ∈ group, z.Fits c ∨ ComesRound group c z := by
  have hdrift : ∀ l : Location,
      growthBefore (patches l.role (inOrder group)) l.index = drift group l := fun l =>
    growthBefore_perm (patches_perm l.role (inOrder_perm group)) l.index
  rw [exists_spliceAll_iff hc]
  simp only [mem_inOrder]
  refine ⟨?_, fun h => ⟨fun z hz => ?_, fun r list hr => ?_⟩⟩
  · rintro ⟨hfound, hwoven⟩ z hz
    obtain ⟨l, list, hl, hlist⟩ := hfound z hz
    have hinside := (weave_isSome_iff (patches_inOrder_strict l.role hdistinct)).mp
      (hwoven l.role list hlist) _ (mem_patches.mpr ⟨z, mem_inOrder.mpr hz, l, hl, rfl, rfl⟩)
    rw [hdrift, Int.zero_add] at hinside
    exact (inside_drift_iff hdistinct hindex hlists hz hl hlist).mp hinside
  · rcases h z hz with ⟨l, list, hl, hlist, -⟩ | ⟨l, list, hl, hlist, -⟩ <;>
      exact ⟨l, list, hl, hlist⟩
  · refine (weave_isSome_iff (patches_inOrder_strict r hdistinct)).mpr fun p hp => ?_
    obtain ⟨z, hz, l, hl, rfl, rfl⟩ := mem_patches.mp hp
    have hz := mem_inOrder.mp hz
    rw [hdrift, Int.zero_add]
    exact (inside_drift_iff hdistinct hindex hlists hz hl hr).mpr (h z hz)

/-- **Acceptance of a group** of edits of one parent at distinct positions. -/
theorem moveUpGroup_succeeds_iff {adapter : Adapter σ N} {parent : N}
    (hc : adapter.children parent = c) (hroles : c.roles.Nodup)
    (hadapter : adapter.NeverFailsAt parent) (hne : group ≠ [])
    (hparent : ∀ z ∈ group, z.parent? = some parent) (s : σ) :
    (∃ new s', (moveUpGroup adapter group).runWith s = (.ok new, s')) ↔
      ∀ z ∈ group, z.Fits c ∨ ComesRound group c z := by
  rw [← exists_spliceAll_inOrder_iff hdistinct hindex hlists hroles]
  obtain ⟨first, -, hgroup⟩ := moveUpGroup_eq adapter hne hparent
  rw [hgroup, hc]
  constructor
  · rintro ⟨new, s', hrun⟩
    obtain ⟨c', t, hsplice, -⟩ := Attempt.exists_of_bind_ok hrun
    exact ⟨c', Attempt.eq_of_ofExcept_ok hsplice⟩
  · rintro ⟨c', hsplice⟩
    obtain ⟨new, t, hnew⟩ := hadapter c' s (by rw [roles_spliceAll hsplice, hc])
    refine ⟨{ node := new, crumbs := first.crumbs.tail }, t, ?_⟩
    rw [hsplice]
    exact Attempt.runWith_bind_ok hnew _

end Acceptance

/-! ### A single edit -/

/-- An edit that fits works at its index. -/
theorem splice_of_index_lt {c : Children N} {l : Location} {list : List N} {edit : Edit}
    (hlist : c.get? l.role = some list) (hlength : list.length < 2 ^ 63)
    (hindex : l.index < if edit = .insertBefore then list.length + 1 else list.length) (node : N) :
    c.splice l 0 edit node = .ok (c.insert l.role (edit.made list l.index node)) := by
  have hplace : l.index + edit.offset < edit.places list.length := by
    cases edit <;> simp only [Edit.offset, Edit.places, Edit.inserts, reduceCtorEq,
      Bool.false_eq_true, if_true, if_false] at hindex ⊢ <;> omega
  have hword : l.index + edit.offset < 2 ^ 63 := by
    cases edit <;> simp only [Edit.offset, reduceCtorEq, if_true, if_false] at hindex ⊢ <;> omega
  have htarget : edit.target l.index 0 = ((l.index + edit.offset : Nat) : Int) := by
    rw [Edit.target_eq, Int.add_zero, ← Int.natCast_add, signedWord_natCast hword]
  simp only [Children.splice, hlist, htarget]
  rw [if_pos ⟨Int.natCast_nonneg _, Int.ofNat_lt.mpr hplace⟩, Int.toNat_natCast,
    Edit.applyAt_offset]

/-- A node that is put behind the very last index comes first. -/
theorem splice_last {c : Children N} {l : Location} {list : List N}
    (hlist : c.get? l.role = some list) (hlast : l.index = 2 ^ 64 - 1) (node : N) :
    c.splice l 0 .insertAfter node = .ok (c.insert l.role (node :: list)) := by
  have htarget : Edit.insertAfter.target l.index 0 = 0 := by
    rw [hlast]
    decide
  have hplace : (0 : Int) < Edit.insertAfter.places list.length :=
    Int.ofNat_lt.mpr (Nat.succ_pos list.length)
  simp only [Children.splice, hlist, htarget]
  rw [if_pos ⟨Int.le_refl 0, hplace⟩]
  rfl

/-! ### Every index -/

/-- **Acceptance for every index.** Let an adapter never fail.

* A single edit succeeds exactly if it fits or puts a node behind the very last index. If it fits,
  its parent is rebuilt with the edit made at its index, and in the other case with the node in
  front.
* Edits of one parent at distinct positions succeed together exactly if each of them fits or comes
  round. None comes round whose index leaves room for the group among the words of 64 bits.
* Whatever is refused is refused as a broken contract.

The bounds on lists and groups say no more than that they are kept in memory. -/
theorem accepted_iff {adapter : Adapter σ N} {parent : N}
    (hadapter : ∀ node, adapter.NeverFailsAt node)
    (hroles : (adapter.children parent).roles.Nodup) :
    (∀ (z : Zipper N) (l : Location) (above : List (Crumb N)),
      z.crumbs = ⟨parent, l⟩ :: above → l.index < 2 ^ 64 →
      (∀ r list, (adapter.children parent).get? r = some list → list.length < 2 ^ 63) →
        (∀ s, (∃ new s', (z.moveUp adapter).runWith s = (.ok new, s')) ↔
          z.Fits (adapter.children parent) ∨
            (∃ list, (adapter.children parent).get? l.role = some list) ∧
              z.edit = .insertAfter ∧ l.index = 2 ^ 64 - 1) ∧
        (∀ list, (adapter.children parent).get? l.role = some list →
          (z.Fits (adapter.children parent) → z.moveUp adapter =
            adapter.rebuild parent ((adapter.children parent).insert l.role
              (z.edit.made list l.index z.node)) >>=
                fun new => pure { node := new, crumbs := above }) ∧
          (z.edit = .insertAfter → l.index = 2 ^ 64 - 1 → z.moveUp adapter =
            adapter.rebuild parent ((adapter.children parent).insert l.role (z.node :: list)) >>=
              fun new => pure { node := new, crumbs := above })) ∧
        (z.moveUp adapter).Contractual) ∧
    ∀ group : List (Zipper N), group ≠ [] → (∀ z ∈ group, z.parent? = some parent) →
      (group.map Zipper.location?).Nodup →
      (∀ z ∈ group, ∀ l, z.location? = some l → l.index < 2 ^ 64) →
      (∀ r list, (adapter.children parent).get? r = some list →
        list.length + group.length ≤ 2 ^ 63) →
        (∀ s, (∃ new s', (moveUpGroup adapter group).runWith s = (.ok new, s')) ↔
          ∀ z ∈ group, z.Fits (adapter.children parent) ∨
            ComesRound group (adapter.children parent) z) ∧
        (∀ z ∈ group, (∀ l, z.location? = some l → l.index + group.length < 2 ^ 64) →
          ¬ComesRound group (adapter.children parent) z) ∧
        (moveUpGroup adapter group).Contractual := by
  refine ⟨fun z l above hcrumbs hindex hlists => ⟨fun s => ?_, fun list hlist => ?_, ?_⟩,
    fun group hne hparent hdistinct hindex hlists =>
      ⟨moveUpGroup_succeeds_iff hdistinct hindex hlists rfl hroles (hadapter parent) hne hparent,
        fun z hz hroom => not_comesRound hz hroom _, contractual_moveUpGroup hadapter group⟩⟩
  · have hl : z.location? = some l := by rw [Zipper.location?, hcrumbs]; rfl
    have hparent : z.parent? = some parent := by rw [Zipper.parent?, hcrumbs]; rfl
    have hdistinct : ([z].map Zipper.location?).Nodup := List.nodup_singleton _
    have hgroup := moveUpGroup_succeeds_iff hdistinct (by simpa [hl] using hindex) hlists rfl hroles
      (hadapter parent) (List.cons_ne_nil _ _) (by simpa using hparent) s
    rw [← moveUpGroup_singleton, hgroup, ← comesRound_single_iff hl hindex]
    exact List.forall_mem_singleton
  · simp only [Zipper.moveUp, hcrumbs, Crumb.graft]
    refine ⟨?_, fun hedit hlast => ?_⟩
    · rintro ⟨m, other, hm, hother, hfits⟩
      obtain rfl : l = m := by simpa [Zipper.location?, hcrumbs] using hm
      obtain rfl : list = other := Option.some.inj (hlist.symm.trans hother)
      rw [splice_of_index_lt hlist (hlists _ _ hlist) hfits]
      rfl
    · rw [hedit, splice_last hlist hlast]
      rfl
  · rw [← moveUpGroup_singleton]
    exact contractual_moveUpGroup hadapter [z]

end Batch

/-! ### Acceptance on a table -/

namespace Graph

open Arborist.Batch

/-- A node that is put behind the last word of 64 bits. -/
def lastEdit : Zipper Node :=
  siblingEdit "n" "x" (2 ^ 64 - 1) .insertAfter

/-- An insertion at the first child, and a replacement of a child with a far larger index. -/
def farEdits : List (Zipper Node) :=
  [siblingEdit "n" "x" 0 .insertAfter, siblingEdit "m" "x" (2 ^ 64 - 1) .replace]

theorem not_fits_last {z : Zipper Node} (hz : z.location? = some ⟨.named "x", 2 ^ 64 - 1⟩) :
    ¬z.Fits (siblingTable.children (.listed "root")) := by
  rintro ⟨l, list, hl, hlist, hroom⟩
  obtain rfl : ⟨.named "x", 2 ^ 64 - 1⟩ = l := Option.some.inj (hz.symm.trans hl)
  obtain rfl : [Node.listed "a", .listed "b"] = list := Option.some.inj hlist
  simp only [List.length_cons, List.length_nil] at hroom
  split at hroom <;> omega

theorem length_siblings_le {r : Role} {list : List Node}
    (h : (siblingTable.children (.listed "root")).get? r = some list) : list.length ≤ 2 :=
  (by decide : ∀ g ∈ (siblingTable.children (.listed "root")).groups, g.2.length ≤ 2) _
    (Children.mem_groups_of_get? h)

theorem accepted_iff_siblings :
    (∃ new s', ((siblingEdit "n" "x" 1 .insertAfter).moveUp
        (siblingTable.adapter : Adapter Nat Node)).runWith 0 = (.ok new, s')) ∧
      (∃ e s', ((siblingEdit "n" "x" (2 ^ 64 - 1) .replace).moveUp
        (siblingTable.adapter : Adapter Nat Node)).runWith 0 = (.error e, s') ∧
          e.kind = .invariant) ∧
      ∃ new s', (moveUpGroup (siblingTable.adapter : Adapter Nat Node)
        [siblingEdit "n" "x" 2 .insertBefore, siblingEdit "a" "x" 0 .delete]).runWith 0 =
          (.ok new, s') := by
  have hnever : ∀ node, (siblingTable.adapter : Adapter Nat Node).NeverFailsAt node :=
    Traversal.neverFailsAt rfl
  have hroles : (siblingTable.children (.listed "root")).roles.Nodup := by decide
  obtain ⟨hsingle, hgroup⟩ := accepted_iff hnever hroles
  have hshort : ∀ r list, (siblingTable.children (.listed "root")).get? r = some list →
      list.length < 2 ^ 63 := fun r list hr =>
    Nat.lt_of_le_of_lt (length_siblings_le hr) (by decide)
  refine ⟨?_, ?_, ?_⟩
  · obtain ⟨hsucceeds, -⟩ := hsingle (siblingEdit "n" "x" 1 .insertAfter) ⟨.named "x", 1⟩ [] rfl
      (by decide) hshort
    exact (hsucceeds 0).mpr (.inl ⟨_, _, rfl, rfl, by decide⟩)
  · obtain ⟨hsucceeds, -, hbroken⟩ := hsingle (siblingEdit "n" "x" (2 ^ 64 - 1) .replace)
      ⟨.named "x", 2 ^ 64 - 1⟩ [] rfl (by decide) hshort
    cases hrun : ((siblingEdit "n" "x" (2 ^ 64 - 1) .replace).moveUp
        (siblingTable.adapter : Adapter Nat Node)).runWith 0 with
    | mk r s' =>
      cases r with
      | error e => exact ⟨e, s', rfl, hbroken 0 e s' hrun⟩
      | ok new =>
        rcases (hsucceeds 0).mp ⟨new, s', hrun⟩ with h | ⟨-, h, -⟩
        · exact absurd h (not_fits_last rfl)
        · cases h
  · obtain ⟨hsucceeds, -⟩ := hgroup
      [siblingEdit "n" "x" 2 .insertBefore, siblingEdit "a" "x" 0 .delete] (List.cons_ne_nil _ _)
      (by simp [siblingEdit, Zipper.parent?]) (by decide)
      (by simp [siblingEdit, Zipper.location?])
      fun r list hr => Nat.le_trans (Nat.add_le_add_right (length_siblings_le hr) _) (by decide)
    refine (hsucceeds 0).mpr (List.forall_mem_cons.mpr ⟨.inl ⟨_, _, rfl, rfl, by decide⟩,
      List.forall_mem_singleton.mpr (.inl ⟨_, _, rfl, rfl, by decide⟩)⟩)

/-- **Indices out of range that are accepted**: a node put behind the last of all indices comes
first, though there are two children only, and a node inserted at the first child lets a replacement
at the last of all indices meet the first child. -/
theorem accepted_out_of_range :
    (¬lastEdit.Fits (siblingTable.children (.listed "root")) ∧
      ∃ new s', (lastEdit.moveUp (siblingTable.adapter : Adapter Nat Node)).runWith 0 =
          (.ok new, s') ∧
        (siblingTable.children new.node).get? (.named "x") =
          some [.listed "n", .listed "a", .listed "b"]) ∧
      (farEdits.map Zipper.location?).Nodup ∧
      (∃ z ∈ farEdits, ¬z.Fits (siblingTable.children (.listed "root"))) ∧
      ∃ new s', (moveUpGroup (siblingTable.adapter : Adapter Nat Node) farEdits).runWith 0 =
          (.ok new, s') ∧
        (siblingTable.children new.node).get? (.named "x") =
          some [.listed "m", .listed "n", .listed "b"] := by
  refine ⟨⟨not_fits_last rfl, _, _, rfl, rfl⟩, by decide, ⟨_, List.mem_cons_of_mem _
    List.mem_cons_self, not_fits_last rfl⟩, _, _, rfl, rfl⟩

end Graph

end Arborist
