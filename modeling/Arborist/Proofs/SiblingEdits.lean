import Arborist.Graph
import Arborist.Proofs.Simultaneous
import Arborist.Proofs.Splicing
import Mathlib

/-!
# Edits of siblings

`Batch.moveUpGroup` applies the edits of one parent, and nothing is known beforehand about the
places they name. This file says **when it fails and what it hands on otherwise**:

* An edit **fits** (`Zipper.Fits`) if the parent has its role and its index lies in the list of that
  role, as the list was before any edit; a node can also be put in front of the end of the list.
* What was done to a list and the shift of its role stay **in step** (`InStep`), so the check that
  is made against the list as it has become finds exactly the edits that don't fit
  (`fits_of_spliceAll`).
* If all of them fit, every child is replaced by its slot, and what was put in front of the end
  comes last (`Children.spliced`, `spliceAll_of_fits`).

The lists may be of any length. What is behind the last edit is never looked at
(`weave_append_right`), so only the indices and the number of edits have to be machine words.
-/

namespace Arborist

variable {σ N : Type}

/-- An edit **fits** some children: its role is there, and its index lies in the list of the role,
or at the end of it for a node that is put in front. -/
def Zipper.Fits (z : Zipper N) (c : Children N) : Prop :=
  ∃ l list, z.location? = some l ∧ c.get? l.role = some list ∧
    l.index < if z.edit = .insertBefore then list.length + 1 else list.length

/-- The children with all **edits made**: every child is replaced by its slot, and the nodes that
are put in front of the end come last. -/
def Children.spliced (zs : List (Zipper N)) (c : Children N) : Children N :=
  ⟨c.groups.map fun g => (g.1,
    (g.2.mapIdx fun i child => Batch.slot zs ⟨g.1, i⟩ child).flatten ++
      Batch.carriedAt zs ⟨g.1, g.2.length⟩ .insertBefore)⟩

/-- An adapter **never fails** at a node if it can be rebuilt with any children under its roles. -/
def Adapter.NeverFailsAt (adapter : Adapter σ N) (node : N) : Prop :=
  ∀ (c : Children N) (s : σ), c.roles = (adapter.children node).roles →
    ∃ new s', (adapter.rebuild node c).runWith s = (.ok new, s')

@[simp] theorem Children.roles_spliced (zs : List (Zipper N)) (c : Children N) :
    (c.spliced zs).roles = c.roles := by
  simp [roles, spliced]

/-- The list of a role with all edits made, from the list that it had. -/
theorem Children.get?_spliced (zs : List (Zipper N)) (c : Children N) (r : Role) :
    (c.spliced zs).get? r = (c.get? r).map fun list =>
      (list.mapIdx fun i child => Batch.slot zs ⟨r, i⟩ child).flatten ++
        Batch.carriedAt zs ⟨r, list.length⟩ .insertBefore :=
  lookup_map (fun r list => (list.mapIdx fun i child => Batch.slot zs ⟨r, i⟩ child).flatten ++
    Batch.carriedAt zs ⟨r, list.length⟩ .insertBefore) r c.groups

/-- A role without edits keeps its list. -/
theorem Children.get?_spliced_of_untouched {zs : List (Zipper N)} (c : Children N) {r : Role}
    (h : ∀ z ∈ zs, ∀ l, z.location? = some l → l.role ≠ r) :
    (c.spliced zs).get? r = c.get? r := by
  have hnone : ∀ i edit, Batch.carriedAt zs ⟨r, i⟩ edit = [] := by
    intro i edit
    rw [Batch.carriedAt, List.map_eq_nil_iff, List.filter_eq_nil_iff]
    intro z hz
    simp only [decide_eq_true_eq, not_and]
    exact fun hl => absurd rfl (h z hz _ hl)
  have hslot : ∀ list : List N,
      (list.mapIdx fun i child => Batch.slot zs ⟨r, i⟩ child).flatten = list := by
    intro list
    have hone : (list.mapIdx fun i child => Batch.slot zs ⟨r, i⟩ child) = list.map ([·]) := by
      refine List.ext_getElem (by simp) fun i _ _ => ?_
      simp [Batch.slot, hnone]
    rw [hone, ← List.flatMap_def, List.flatMap_singleton']
  simp [get?_spliced, hnone, hslot]

namespace Batch

/-! ### Edits that do not fit -/

/-- Splicing succeeds at a place inside the list of a role that is there, and nowhere else. -/
theorem exists_of_splice {c c' : Children N} {l : Location} {shift : Int} {edit : Edit} {node : N}
    (h : c.splice l shift edit node = .ok c') :
    ∃ list, c.get? l.role = some list ∧ 0 ≤ edit.target l.index shift ∧
      edit.target l.index shift < edit.places list.length ∧
      c' = c.insert l.role (edit.applyAt list (edit.target l.index shift).toNat node) := by
  rw [Children.splice] at h
  split at h
  · simp at h
  · rename_i list hlist
    simp only at h
    split at h
    · rename_i hroom
      exact ⟨list, hlist, hroom.1, hroom.2, (Except.ok.inj h).symm⟩
    · simp at h

theorem kind_of_splice_error {c : Children N} {l : Location} {shift : Int} {edit : Edit} {node : N}
    {e : Error} (h : c.splice l shift edit node = .error e) : e.kind = .invariant := by
  rw [Children.splice] at h
  split at h
  · cases h
    rfl
  · simp only at h
    split at h
    · simp at h
    · cases h
      rfl

/-- Whatever goes wrong while splicing is a broken contract. -/
theorem kind_of_spliceAll_error {c : Children N} {shift : Role → Int} {zs : List (Zipper N)}
    {e : Error} (h : spliceAll c shift zs = .error e) : e.kind = .invariant := by
  induction zs generalizing c shift with
  | nil => simp [spliceAll] at h
  | cons z zs ih =>
    rw [spliceAll] at h
    split at h
    · cases h
      rfl
    · rename_i l _
      cases hsplice : c.splice l (shift l.role) z.edit z.node with
      | error e' =>
        rw [hsplice] at h
        obtain rfl : e' = e := Except.error.inj h
        exact kind_of_splice_error hsplice
      | ok c' =>
        rw [hsplice] at h
        exact ih h

/-- Children that were edited are **in step** with the shifts: they have the roles of the children
that they were made from, and every list has grown by the shift of its role. -/
def InStep (c₀ c : Children N) (shift : Role → Int) : Prop :=
  ∀ r list, c.get? r = some list →
    ∃ list₀, c₀.get? r = some list₀ ∧ (list.length : Int) = list₀.length + shift r

theorem InStep.refl (c : Children N) : InStep c c fun _ => 0 := fun _ list h => ⟨list, h, by simp⟩

/-- One edit keeps children and shifts in step. -/
theorem InStep.insert {c₀ c : Children N} {shift : Role → Int} (hstep : InStep c₀ c shift)
    {r : Role} {list : List N} (hlist : c.get? r = some list) {edit : Edit} {i : Nat}
    (hi : i < edit.places list.length) (node : N) :
    InStep c₀ (c.insert r (edit.applyAt list i node)) (grow shift r edit) := by
  intro s list' h
  rw [Children.get?_insert] at h
  by_cases hs : r = s
  · subst hs
    rw [if_pos rfl, Option.some.injEq] at h
    obtain ⟨list₀, hlist₀, hlength⟩ := hstep r list hlist
    refine ⟨list₀, hlist₀, ?_⟩
    rw [← h, length_applyAt hi, grow, if_pos rfl, hlength, Int.add_assoc]
  · rw [if_neg hs] at h
    rw [grow, if_neg (Ne.symm hs)]
    exact hstep s list' h

/-- Machine words that are small are what they stand for. -/
theorem signedWord_of_lt {x : Int} (hlow : -9223372036854775808 ≤ x)
    (hhigh : x < 9223372036854775808) : signedWord x = x := by
  rw [signedWord, Int.bmod_eq_of_le] <;> omega

/-- **Splicing checks the lists as they were**: where it succeeds, every edit fits the children that
there were in the beginning. -/
theorem fits_of_spliceAll {c₀ c c' : Children N} {shift : Role → Int} {zs : List (Zipper N)}
    (hstep : InStep c₀ c shift)
    (hindex : ∀ z ∈ zs, ∀ l, z.location? = some l → l.index < 2 ^ 62)
    (hshift : ∀ r, -(2 ^ 62 : Int) < shift r - zs.length ∧ shift r + zs.length < (2 ^ 62 : Int))
    (h : spliceAll c shift zs = .ok c') : ∀ z ∈ zs, z.Fits c₀ := by
  induction zs generalizing c shift with
  | nil => simp
  | cons z zs ih =>
    rw [spliceAll] at h
    split at h
    · simp at h
    · rename_i l hl
      cases hsplice : c.splice l (shift l.role) z.edit z.node with
      | error e =>
        rw [hsplice] at h
        simp [bind, Except.bind] at h
      | ok d =>
        rw [hsplice] at h
        obtain ⟨list, hlist, hlow, hhigh, rfl⟩ := exists_of_splice hsplice
        obtain ⟨list₀, hlist₀, hlength⟩ := hstep l.role list hlist
        have hl' := hindex z List.mem_cons_self l hl
        -- no sum of an index and a shift leaves the machine words
        have htarget : z.edit.target l.index (shift l.role) =
            l.index + shift l.role + if z.edit = .insertAfter then 1 else 0 := by
          have := hshift l.role
          simp only [List.length_cons, Nat.cast_add, Nat.cast_one] at this
          exact signedWord_of_lt (by split <;> omega) (by split <;> omega)
        refine List.forall_mem_cons.mpr ⟨⟨l, list₀, hl, hlist₀, ?_⟩, ?_⟩
        · rw [htarget] at hhigh
          rw [Edit.places] at hhigh
          cases hedit : z.edit <;>
            simp only [hedit, Edit.inserts, reduceCtorEq, Bool.false_eq_true, if_true,
              if_false] at hhigh ⊢ <;>
            omega
        · refine ih (hstep.insert hlist (by omega) z.node)
            (fun y hy => hindex y (List.mem_cons_of_mem _ hy)) (fun r => ?_) h
          have hbounds := hshift r
          have hgrowth := growth_bounds z.edit
          simp only [List.length_cons, Nat.cast_add, Nat.cast_one] at hbounds
          rw [grow]
          split <;> omega

/-! ### Edits that fit -/

theorem insertIdx_append {front : List N} {i : Nat} (hi : i ≤ front.length) (back : List N)
    (n : N) : (front ++ back).insertIdx i n = front.insertIdx i n ++ back := by
  obtain ⟨before, after, rfl, rfl⟩ : ∃ before after, front = before ++ after ∧
      before.length = i :=
    ⟨front.take i, front.drop i, (List.take_append_drop _ _).symm, List.length_take_of_le hi⟩
  rw [List.append_assoc, insertIdx_length_append, insertIdx_length_append, List.append_assoc,
    List.cons_append]

/-- Edits do not see what is behind the last place they can work at. -/
theorem weave_append_right {list out : List N} {shift : Int} {ps : List (Patch N)}
    (h : weave list shift ps = some out) (tail : List N) :
    weave (list ++ tail) shift ps = some (out ++ tail) := by
  induction ps generalizing list shift with
  | nil =>
    obtain rfl : list = out := by simpa [weave] using h
    rfl
  | cons p ps ih =>
    rw [weave] at h
    split at h
    · rename_i hroom
      obtain ⟨place, hplace⟩ := Int.eq_ofNat_of_zero_le hroom.1
      rw [hplace, Int.toNat_natCast] at h
      have hin : place < p.edit.places list.length := by
        have := hroom.2
        rw [hplace] at this
        exact Int.ofNat_lt.mp this
      have happly : p.edit.applyAt (list ++ tail) place p.node =
          p.edit.applyAt list place p.node ++ tail := by
        cases hedit : p.edit with
        | replace =>
          rw [hedit] at hin
          exact List.set_append_left _ _ hin
        | delete =>
          rw [hedit] at hin
          exact List.eraseIdx_append_of_lt_length hin _
        | insertBefore | insertAfter =>
          rw [hedit] at hin
          exact insertIdx_append (Nat.lt_succ_iff.mp hin) tail p.node
      have hwider : place < p.edit.places (list ++ tail).length := by
        refine Nat.lt_of_lt_of_le hin ?_
        rw [Edit.places, Edit.places, List.length_append]
        split <;> omega
      rw [weave_cons (i := p.index) hplace hwider, happly]
      exact ih h
    · simp at h

/-- A list in which nothing that satisfies `p` comes after something that does not. -/
theorem eq_filter_append_filter_not {α : Type} {p : α → Bool} {l : List α}
    (h : l.Pairwise fun a b => p b = true → p a = true) :
    l = l.filter p ++ l.filter (!p ·) := by
  induction l with
  | nil => rfl
  | cons a l ih =>
    rw [List.pairwise_cons] at h
    by_cases ha : p a = true
    · simpa [ha] using ih h.2
    · have hnone : l.filter p = [] := List.filter_eq_nil_iff.mpr fun b hb hp => ha (h.1 b hb hp)
      have hrest := ih h.2
      rw [hnone, List.nil_append] at hrest
      simp [ha, hnone, ← hrest]

theorem patchedAt_filter (ps : List (Patch N)) {q : Nat → Bool} {i : Nat} (hi : q i = true)
    (edit : Edit) : patchedAt (ps.filter (q ·.index)) i edit = patchedAt ps i edit := by
  simp only [patchedAt, List.filter_filter]
  congr 1
  refine List.filter_congr fun p _ => ?_
  by_cases h : p.index = i
  · simp [h, hi]
  · simp [h]

theorem patched_of_untouched {ps : List (Patch N)} {i : Nat} (hi : ∀ p ∈ ps, p.index ≠ i) (x : N) :
    patched ps i x = [x] := by
  have hnone : ∀ edit, patchedAt ps i edit = [] := by
    intro edit
    rw [patchedAt, List.map_eq_nil_iff, List.filter_eq_nil_iff]
    intro p hp
    simp [hi p hp]
  simp [patched, hnone]

/-- Edits inside a list of any length turn its children into slots. -/
theorem weave_inside {list : List N} {ps : List (Patch N)} (hsorted : ps.Pairwise Patch.Before)
    (hinside : ∀ p ∈ ps, p.index < list.length) (hindex : ∀ p ∈ ps, p.index < 2 ^ 62)
    (hsparing : ∀ i, Sparing ps i) (hcount : ps.length < 2 ^ 62) :
    weave list 0 ps = some (list.mapIdx fun i x => patched ps i x).flatten := by
  -- the part that the edits can reach, and the rest
  obtain ⟨front, back, rfl, hreach, hfront⟩ : ∃ front back, list = front ++ back ∧
      (∀ p ∈ ps, p.index < front.length) ∧ front.length ≤ 2 ^ 62 := by
    refine ⟨list.take (2 ^ 62), list.drop (2 ^ 62), (List.take_append_drop _ _).symm, ?_, ?_⟩
    · intro p hp
      rw [List.length_take]
      exact lt_min (hindex p hp) (hinside p hp)
    · rw [List.length_take]
      exact min_le_left _ _
  have hslots := weave_slots 0 [] front hsorted
    (fun p hp => ⟨Nat.zero_le _, by simpa using hreach p hp⟩) hsparing
    (by simp only [List.nil_append]; omega)
  have hbehind : (back.mapIdx fun i x => patched ps (i + front.length) x).flatten = back := by
    have hone : (back.mapIdx fun i x => patched ps (i + front.length) x) = back.map ([·]) := by
      refine List.ext_getElem (by simp) fun i _ _ => ?_
      rw [List.getElem_mapIdx, List.getElem_map]
      exact patched_of_untouched (fun p hp => by have := hreach p hp; omega) _
    rw [hone, ← List.flatMap_def, List.flatMap_singleton']
  simp only [List.nil_append, List.length_nil, Nat.cast_zero, Int.sub_zero, Nat.zero_add] at hslots
  rw [weave_append_right hslots, List.mapIdx_append, List.flatten_append, hbehind]

/-- Edits inside a list and in front of its end. -/
theorem weave_fitting {list : List N} {ps : List (Patch N)} (hsorted : ps.Pairwise Patch.Before)
    (hfits : ∀ p ∈ ps, p.index < list.length ∨ p.index = list.length ∧ p.edit = .insertBefore)
    (hindex : ∀ p ∈ ps, p.index < 2 ^ 62) (hsparing : ∀ i, Sparing ps i)
    (hcount : ps.length < 2 ^ 62) :
    weave list 0 ps = some ((list.mapIdx fun i x => patched ps i x).flatten ++
      patchedAt ps list.length .insertBefore) := by
  have hsplit := eq_filter_append_filter_not
    (p := fun p : Patch N => decide (p.index < list.length)) (hsorted.imp fun {p q} h => by
      simp only [decide_eq_true_eq]
      rcases h with h | h <;> omega)
  have hlength := congrArg List.length hsplit
  rw [List.length_append] at hlength
  -- what is left for the end of the list
  have hend : ps.filter (fun p => !decide (p.index < list.length)) =
      (patchedAt ps list.length .insertBefore).map (⟨list.length, .insertBefore, ·⟩) := by
    rw [← filter_eq_map_patchedAt]
    refine List.filter_congr fun p hp => ?_
    rcases hfits p hp with h | ⟨h, hedit⟩
    · simp [h, Nat.ne_of_lt h]
    · simp [h, hedit]
  rw [hend, List.length_map] at hlength
  -- the edits inside the list
  have hinside : weave list 0 (ps.filter (·.index < list.length)) = some
      (list.mapIdx fun i x => patched (ps.filter (·.index < list.length)) i x).flatten :=
    weave_inside (hsorted.filter (·.index < list.length))
      (fun p hp => by simpa using (List.mem_filter.mp hp).2)
      (fun p hp => hindex p (List.mem_filter.mp hp).1)
      (fun i => by
        refine ⟨?_, ?_⟩
        · exact Nat.le_trans (((List.filter_sublist).filter _).map _).length_le (hsparing i).1
        · exact Nat.le_trans (((List.filter_sublist).filter _).map _).length_le (hsparing i).2)
      (by omega)
  have hslots : (list.mapIdx fun i x => patched (ps.filter (·.index < list.length)) i x) =
      list.mapIdx fun i x => patched ps i x := by
    refine List.ext_getElem (by simp) fun i hi _ => ?_
    have hsame := patchedAt_filter ps (q := fun j => decide (j < list.length)) (i := i)
      (by simpa using hi)
    simp only [List.getElem_mapIdx, patched, hsame]
  rw [hslots] at hinside
  have hgrown := length_weave hinside
  have hgrowth := (sum_growth_bounds (ps.filter (·.index < list.length))).2
  conv_lhs => rw [hsplit, hend]
  rw [weave_append, hinside, Option.bind_some]
  rcases hnodes : patchedAt ps list.length .insertBefore with _ | ⟨n, nodes⟩
  · simp [weave]
  · -- there is an edit at the end, so that the list is no longer than an index can be
    have hbound : list.length < 2 ^ 62 := by
      have hmem : (⟨list.length, .insertBefore, n⟩ : Patch N) ∈ ps := by
        rw [hsplit, hend, hnodes]
        simp
      exact hindex _ hmem
    have hinserts : weave ((list.mapIdx fun i x => patched ps i x).flatten ++ [])
        (0 + ((ps.filter (·.index < list.length)).map fun p => p.edit.growth).sum)
        ((n :: nodes).map (⟨list.length, .insertBefore, ·⟩)) =
          some ((list.mapIdx fun i x => patched ps i x).flatten ++ (n :: nodes) ++ []) :=
      weave_inserts rfl list.length _ _ _
        (by simp only [reduceCtorEq, if_false]; omega)
        (by rw [hnodes] at hlength; simp only [List.length_append, List.length_nil]; omega)
    simpa using hinserts

/-- **Splicing edits that fit** gives the children with all edits made. -/
theorem spliceAll_of_fits {c : Children N} (hc : c.roles.Nodup) {zs : List (Zipper N)}
    (hfits : ∀ z ∈ zs, z.Fits c)
    (hreplace : ∀ l, (carriedAt zs l .replace).length ≤ 1)
    (hdelete : ∀ l, (carriedAt zs l .delete).length ≤ 1)
    (hindex : ∀ z ∈ zs, ∀ l, z.location? = some l → l.index < 2 ^ 62)
    (hcount : zs.length < 2 ^ 62) :
    spliceAll c (fun _ => 0) (inOrder zs) = .ok (c.spliced zs) := by
  have hlist : ∀ r list, c.get? r = some list →
      weave list 0 (patches r (inOrder zs)) =
        some ((list.mapIdx fun i child => slot zs ⟨r, i⟩ child).flatten ++
          carriedAt zs ⟨r, list.length⟩ .insertBefore) := by
    intro r list hr
    have h : weave list 0 (patches r (inOrder zs)) = some _ :=
      weave_fitting (patches_inOrder_pairwise zs r) (fun p hp => ?_)
      (fun p hp => ?_) (fun i => ?_) ?_
    · simpa only [patched, slot, patchedAt_patches, carriedAt_inOrder] using h
    · obtain ⟨z, hz, hzp⟩ := List.mem_filterMap.mp hp
      obtain ⟨m, hm, rfl, rfl⟩ := patch?_eq_some hzp
      obtain ⟨l, list', hl, hlist', hroom⟩ := hfits z (mem_inOrder.mp hz)
      obtain rfl : l = m := by simpa [hl] using hm
      obtain rfl : list' = list := by simpa [hlist'] using hr
      simp only
      split at hroom <;> grind
    · obtain ⟨z, hz, hzp⟩ := List.mem_filterMap.mp hp
      obtain ⟨m, hm, -, rfl⟩ := patch?_eq_some hzp
      exact hindex z (mem_inOrder.mp hz) m hm
    · rw [Sparing, patchedAt_patches, patchedAt_patches, carriedAt_inOrder, carriedAt_inOrder]
      exact ⟨hreplace _, hdelete _⟩
    · refine Nat.lt_of_le_of_lt ?_ hcount
      rw [← length_inOrder zs]
      exact List.length_filterMap_le _ _
  rw [spliceAll_eq_of_weave hc fun r =>
    (((c.get? r).getD []).mapIdx fun i child => slot zs ⟨r, i⟩ child).flatten ++
      carriedAt zs ⟨r, ((c.get? r).getD []).length⟩ .insertBefore]
  · rw [Children.spliced, Children.roles, List.map_map]
    refine congrArg (fun gs => Except.ok (⟨gs⟩ : Children N)) (List.map_congr_left fun g hg => ?_)
    simp [Children.get?_of_mem hc (show (g.1, g.2) ∈ c.groups from hg)]
  · intro z hz
    obtain ⟨l, list, hl, hlist, -⟩ := hfits z (mem_inOrder.mp hz)
    exact ⟨l, list, hl, hlist⟩
  · intro r list hr
    rw [hlist r list hr, hr, Option.getD_some]

/-! ### A group of edits -/

/-- What a group does, once it is known which edit comes first. -/
theorem moveUpGroup_eq (adapter : Adapter σ N) {parent : N} {group : List (Zipper N)}
    (hne : group ≠ []) (hparent : ∀ z ∈ group, z.parent? = some parent) :
    ∃ first ∈ group, moveUpGroup adapter group =
      Attempt.ofExcept (spliceAll (adapter.children parent) (fun _ => 0) (inOrder group)) >>=
        fun children => adapter.rebuild parent children >>=
          fun new => pure { node := new, crumbs := first.crumbs.tail } := by
  cases horder : inOrder group with
  | nil =>
    have hlength := length_inOrder group
    rw [horder] at hlength
    exact absurd (List.eq_nil_of_length_eq_zero hlength.symm) hne
  | cons first rest =>
    have hfirst : first ∈ group := mem_inOrder.mp (horder ▸ List.mem_cons_self)
    obtain ⟨crumb, hhead, hcrumb⟩ := Option.map_eq_some_iff.mp (hparent first hfirst)
    obtain ⟨above, habove⟩ := List.head?_eq_some_iff.mp hhead
    refine ⟨first, hfirst, ?_⟩
    simp only [moveUpGroup, horder, habove, hcrumb, List.tail_cons]

/-- **All edits of one parent at once.** A group of edits of one parent, with at most one
replacement and one deletion at any location, fails with a broken contract exactly if one of them
names a role that the parent lacks or an index outside the list of the role; otherwise the parent is
rebuilt with every child replaced by its slot, and roles without edits are as they were. The edits
come in any order and over any roles. That there are fewer than `2 ^ 62` of them is no more than
that they are kept in memory. -/
theorem moveUpGroup_spliced {adapter : Adapter σ N} {parent : N} {group : List (Zipper N)}
    (hne : group ≠ []) (hparent : ∀ z ∈ group, z.parent? = some parent)
    (hroles : (adapter.children parent).roles.Nodup) (hadapter : adapter.NeverFailsAt parent)
    (hreplace : ∀ l, (carriedAt group l .replace).length ≤ 1)
    (hdelete : ∀ l, (carriedAt group l .delete).length ≤ 1)
    (hindex : ∀ z ∈ group, ∀ l, z.location? = some l → l.index < 2 ^ 62)
    (hcount : group.length < 2 ^ 62) :
    (∀ s, (∃ e s', (moveUpGroup adapter group).runWith s = (.error e, s') ∧
        e.kind = .invariant) ↔ ∃ z ∈ group, ¬z.Fits (adapter.children parent)) ∧
      ((∀ z ∈ group, z.Fits (adapter.children parent)) → ∃ first ∈ group,
        moveUpGroup adapter group =
          adapter.rebuild parent ((adapter.children parent).spliced group) >>=
            fun new => pure { node := new, crumbs := first.crumbs.tail }) ∧
      ∀ role, (∀ z ∈ group, ∀ l, z.location? = some l → l.role ≠ role) →
        ((adapter.children parent).spliced group).get? role =
          (adapter.children parent).get? role := by
  obtain ⟨first, hfirst, hgroup⟩ := moveUpGroup_eq adapter hne hparent
  have hall : (∀ z ∈ group, z.Fits (adapter.children parent)) → moveUpGroup adapter group =
      adapter.rebuild parent ((adapter.children parent).spliced group) >>=
        fun new => pure { node := new, crumbs := first.crumbs.tail } := by
    intro hfits
    rw [hgroup, spliceAll_of_fits hroles hfits hreplace hdelete hindex hcount]
    rfl
  refine ⟨fun s => ⟨?_, ?_⟩, fun hfits => ⟨first, hfirst, hall hfits⟩, fun role hrole =>
    Children.get?_spliced_of_untouched _ hrole⟩
  · rintro ⟨e, s', hrun, -⟩
    by_contra hnone
    push Not at hnone
    obtain ⟨new, t, hnew⟩ := hadapter ((adapter.children parent).spliced group) s
      (Children.roles_spliced _ _)
    rw [hall hnone, Attempt.runWith_bind_ok hnew, Attempt.runWith_pure] at hrun
    cases hrun
  · rintro ⟨z, hz, hstray⟩
    cases hsplice : spliceAll (adapter.children parent) (fun _ => 0) (inOrder group) with
    | ok c =>
      refine absurd (fits_of_spliceAll (.refl _) (fun y hy => hindex y (mem_inOrder.mp hy))
        (fun r => ?_) hsplice z (mem_inOrder.mpr hz)) hstray
      rw [length_inOrder]
      omega
    | error e =>
      refine ⟨e, s, ?_, kind_of_spliceAll_error hsplice⟩
      rw [hgroup, hsplice]
      rfl

end Batch

/-! ### A group on a table -/

namespace Graph

open Arborist.Batch

/-- A node with children in three roles, one of which is empty. -/
def siblingTable : Table where
  entries := [("root", ⟨[(.named "x", ["a", "b"]), (.named "y", []), (.named "z", ["c"])]⟩)]

/-- An edit of a child of the root. -/
def siblingEdit (name role : String) (index : Nat) (edit : Edit) : Zipper Node :=
  ⟨.listed name, [⟨.listed "root", ⟨.named role, index⟩⟩], edit⟩

/-- Edits of all kinds around the first child, in front of the end of a list and in an empty one,
not in the order in which they are applied. -/
def siblingEdits : List (Zipper Node) :=
  [siblingEdit "behind" "x" 0 .insertAfter, siblingEdit "last" "x" 2 .insertBefore,
    siblingEdit "a" "x" 0 .delete, siblingEdit "new" "x" 1 .replace,
    siblingEdit "front" "x" 0 .insertBefore, siblingEdit "only" "y" 0 .insertBefore,
    siblingEdit "next" "x" 0 .insertAfter]

/-- The same edits and one behind the end of a list. -/
def strayEdits : List (Zipper Node) :=
  siblingEdit "stray" "z" 1 .insertAfter :: siblingEdits

/-- There are no more edits of a kind at one location than there are edits of that kind. -/
theorem length_carriedAt_le (zs : List (Zipper N)) (l : Location) (edit : Edit) :
    (carriedAt zs l edit).length ≤ zs.countP fun z => decide (z.edit = edit) := by
  rw [carriedAt, List.length_map, ← List.countP_eq_length_filter]
  refine List.countP_mono_left fun z _ hz => ?_
  simpa using (of_decide_eq_true hz).2

theorem moveUpGroup_spliced_siblings :
    (∃ first ∈ siblingEdits,
      moveUpGroup (siblingTable.adapter : Adapter Nat Node) siblingEdits =
        siblingTable.rebuild (.listed "root")
            ⟨[(.named "x", [.listed "front", .listed "behind", .listed "next", .listed "new",
              .listed "last"]), (.named "y", [.listed "only"]), (.named "z", [.listed "c"])]⟩ >>=
          fun new => pure { node := new, crumbs := first.crumbs.tail }) ∧
      ∃ e s', (moveUpGroup (siblingTable.adapter : Adapter Nat Node) strayEdits).runWith 0 =
        (.error e, s') ∧ e.kind = .invariant := by
  have hlawful : (siblingTable.adapter : Adapter Nat Node).LawfulAt (.listed "root") :=
    siblingTable.lawfulAt (.listed "root") (by decide) List.not_mem_nil
  have hadapter : (siblingTable.adapter : Adapter Nat Node).NeverFailsAt (.listed "root") := by
    intro c s hc
    obtain ⟨new, s', hnew, -⟩ := hlawful.rebuild c s hc
    exact ⟨new, s', hnew⟩
  have hsiblings := moveUpGroup_spliced (show siblingEdits ≠ [] by decide)
    (by simp [siblingEdits, siblingEdit, Zipper.parent?]) hlawful.roles_nodup hadapter
    (fun l => Nat.le_trans (length_carriedAt_le _ l _) (by decide))
    (fun l => Nat.le_trans (length_carriedAt_le _ l _) (by decide))
    (by simp [siblingEdits, siblingEdit, Zipper.location?]) (by decide)
  have hstray := moveUpGroup_spliced (show strayEdits ≠ [] by decide)
    (by simp [strayEdits, siblingEdits, siblingEdit, Zipper.parent?]) hlawful.roles_nodup hadapter
    (fun l => Nat.le_trans (length_carriedAt_le _ l _) (by decide))
    (fun l => Nat.le_trans (length_carriedAt_le _ l _) (by decide))
    (by simp [strayEdits, siblingEdits, siblingEdit, Zipper.location?]) (by decide)
  refine ⟨hsiblings.2.1 ?_, (hstray.1 0).mpr ⟨_, List.mem_cons_self, ?_⟩⟩
  · simp only [siblingEdits, List.forall_mem_cons]
    exact ⟨⟨_, _, rfl, rfl, by decide⟩, ⟨_, _, rfl, rfl, by decide⟩, ⟨_, _, rfl, rfl, by decide⟩,
      ⟨_, _, rfl, rfl, by decide⟩, ⟨_, _, rfl, rfl, by decide⟩, ⟨_, _, rfl, rfl, by decide⟩,
      ⟨_, _, rfl, rfl, by decide⟩, by simp⟩
  · rintro ⟨l, list, hl, hlist, hroom⟩
    obtain rfl : ⟨.named "z", 1⟩ = l := Option.some.inj hl
    obtain rfl : [Node.listed "c"] = list := Option.some.inj hlist
    exact absurd hroom (by decide)

end Graph

end Arborist
