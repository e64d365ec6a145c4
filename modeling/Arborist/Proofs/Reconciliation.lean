import Arborist.Proofs.Simultaneous
import Mathlib

/-!
# Reconciling a batch

`Batch.toRoot` works upwards level by level. What a round does, and what positions are to a batch
whose edits go together:

* `groupByParent_spec` and `settle_ok` describe a round in general: the groups are the edits below
  one parent, a group moves up unless its position is replaced by another node, and a replacement by
  the parent itself is taken out.
* In a `Coherent` batch a way determines a position (`Coherent.crumbs_eq`), and even the nearest
  crumb does so on its level (`Coherent.eq_of_head`).
-/

namespace Arborist

variable {σ N : Type} [Identified N]

namespace Batch

/-! ### Edits by position -/

theorem carried_append (ys zs : List (Zipper N)) (way : Way N) (edit : Edit) :
    carried (ys ++ zs) way edit = carried ys way edit ++ carried zs way edit := by
  simp [carried]

theorem mem_carried {zs : List (Zipper N)} {way : Way N} {edit : Edit} {node : N} :
    node ∈ carried zs way edit ↔ ∃ z ∈ zs, z.way = way ∧ z.edit = edit ∧ z.node = node := by
  simp only [carried, List.mem_map, List.mem_filter, decide_eq_true_eq]
  constructor
  · rintro ⟨z, ⟨hz, hway, hedit⟩, hnode⟩
    exact ⟨z, hz, hway, hedit, hnode⟩
  · rintro ⟨z, hz, hway, hedit, hnode⟩
    exact ⟨z, ⟨hz, hway, hedit⟩, hnode⟩

/-- Dropping edits of other positions or kinds leaves what a position carries. -/
theorem carried_filter {zs : List (Zipper N)} {way : Way N} {edit : Edit} {p : Zipper N → Bool}
    (hp : ∀ z ∈ zs, z.way = way → z.edit = edit → p z = true) :
    carried (zs.filter p) way edit = carried zs way edit := by
  simp only [carried, List.filter_filter]
  congr 1
  refine List.filter_congr fun z hz => ?_
  by_cases h : z.way = way ∧ z.edit = edit
  · simp [h, hp z hz h.1 h.2]
  · simp [h]

theorem carried_eq_nil {zs : List (Zipper N)} {way : Way N} {edit : Edit}
    (h : ∀ z ∈ zs, z.way = way → z.edit ≠ edit) : carried zs way edit = [] := by
  simp only [carried, List.map_eq_nil_iff, List.filter_eq_nil_iff, decide_eq_true_eq, not_and]
  exact h

/-! ### Groups -/

/-- The identity of the parent below which an edit is made. -/
def parentId (z : Zipper N) : Option (Identity N) :=
  z.parent?.map identity

/-- Groups are as they should be for the edits that were grouped so far. -/
structure Grouped (zs : List (Zipper N)) (groups : List (Identity N × List (Zipper N))) : Prop where
  distinct : (groups.map Prod.fst).Nodup
  group_eq : ∀ g ∈ groups, g.2 = zs.filter fun z => parentId z = some g.1
  nonempty : ∀ g ∈ groups, g.2 ≠ []
  covers : ∀ z ∈ zs, ∀ p, parentId z = some p → p ∈ groups.map Prod.fst
  length_le : groups.length ≤ zs.length

theorem map_fst_addToGroup (p : Identity N) (z : Zipper N)
    (groups : List (Identity N × List (Zipper N))) :
    (addToGroup p z groups).map Prod.fst =
      if p ∈ groups.map Prod.fst then groups.map Prod.fst else groups.map Prod.fst ++ [p] := by
  induction groups with
  | nil => simp [addToGroup]
  | cons g groups ih =>
    obtain ⟨q, group⟩ := g
    rw [addToGroup]
    by_cases hq : q = p
    · simp [hq]
    · rw [if_neg hq, List.map_cons, ih]
      by_cases hp : p ∈ groups.map Prod.fst <;> simp [hp, Ne.symm hq]

theorem mem_addToGroup {p : Identity N} {z : Zipper N} {g : Identity N × List (Zipper N)}
    {groups : List (Identity N × List (Zipper N))} (hd : (groups.map Prod.fst).Nodup)
    (hg : g ∈ addToGroup p z groups) :
    (g ∈ groups ∧ g.1 ≠ p) ∨ (∃ group, (p, group) ∈ groups ∧ g = (p, group ++ [z])) ∨
      (p ∉ groups.map Prod.fst ∧ g = (p, [z])) := by
  induction groups with
  | nil =>
    simp only [addToGroup, List.mem_singleton] at hg
    exact .inr (.inr ⟨by simp, hg⟩)
  | cons h groups ih =>
    obtain ⟨q, group⟩ := h
    rw [List.map_cons, List.nodup_cons] at hd
    rw [addToGroup] at hg
    by_cases hq : q = p
    · subst hq
      rw [if_pos rfl] at hg
      rcases List.mem_cons.mp hg with rfl | hmem
      · exact .inr (.inl ⟨group, List.mem_cons_self, rfl⟩)
      · refine .inl ⟨List.mem_cons_of_mem _ hmem, fun hq => ?_⟩
        exact hd.1 (List.mem_map.mpr ⟨g, hmem, hq⟩)
    · rw [if_neg hq] at hg
      rcases List.mem_cons.mp hg with rfl | hg
      · exact .inl ⟨List.mem_cons_self, hq⟩
      · rcases ih hd.2 hg with h | ⟨group', hmem, h⟩ | ⟨hnot, h⟩
        · exact .inl ⟨List.mem_cons_of_mem _ h.1, h.2⟩
        · exact .inr (.inl ⟨group', List.mem_cons_of_mem _ hmem, h⟩)
        · exact .inr (.inr ⟨by simpa [Ne.symm hq] using hnot, h⟩)

/-- An edit of the root belongs to no group. -/
theorem Grouped.skip {zs : List (Zipper N)} {groups : List (Identity N × List (Zipper N))}
    {z : Zipper N} (h : Grouped zs groups) (hid : parentId z = none) :
    Grouped (zs ++ [z]) groups where
  distinct := h.distinct
  group_eq g hg := by
    rw [h.group_eq g hg, List.filter_append]
    simp [hid]
  nonempty := h.nonempty
  covers y hy p hp := by
    rcases List.mem_append.mp hy with hy | hy
    · exact h.covers y hy p hp
    · rw [List.mem_singleton.mp hy, hid] at hp
      cases hp
  length_le := Nat.le_trans h.length_le (by simp)

/-- Any other edit is added to the group of its parent. -/
theorem Grouped.add {zs : List (Zipper N)} {groups : List (Identity N × List (Zipper N))}
    {z : Zipper N} {p : Identity N} (h : Grouped zs groups) (hid : parentId z = some p) :
    Grouped (zs ++ [z]) (addToGroup p z groups) where
  distinct := by
    rw [map_fst_addToGroup]
    split
    · exact h.distinct
    · next hnot =>
      rw [List.nodup_append]
      exact ⟨h.distinct, by simp, fun q hq r hr hqr => by simp_all⟩
  group_eq g hg := by
    rw [List.filter_append]
    rcases mem_addToGroup h.distinct hg with ⟨hmem, hne⟩ | ⟨group, hmem, rfl⟩ | ⟨hnot, rfl⟩
    · rw [h.group_eq g hmem]
      simp [hid, Ne.symm hne]
    · have hgroup : group = zs.filter fun y => parentId y = some p := h.group_eq _ hmem
      simp [hid, ← hgroup]
    · have hnone : zs.filter (fun y => parentId y = some p) = [] :=
        List.filter_eq_nil_iff.mpr fun y hy => by
          simpa using fun hp => hnot (h.covers y hy _ hp)
      simp [hid, hnone]
  nonempty g hg := by
    rcases mem_addToGroup h.distinct hg with ⟨hmem, -⟩ | ⟨group, -, rfl⟩ | ⟨-, rfl⟩
    · exact h.nonempty g hmem
    · simp
    · simp
  covers y hy q hq := by
    have hsub : q ∈ groups.map Prod.fst ∨ q = p := by
      rcases List.mem_append.mp hy with hy | hy
      · exact .inl (h.covers y hy q hq)
      · rw [List.mem_singleton.mp hy, hid] at hq
        exact .inr (by simpa using hq.symm)
    rw [map_fst_addToGroup]
    split
    · next hin =>
      rcases hsub with h | rfl
      · exact h
      · exact hin
    · rcases hsub with h | rfl <;> simp [*]
  length_le := by
    have hlen := congrArg List.length (map_fst_addToGroup p z groups)
    have hle := h.length_le
    simp only [List.length_map, List.length_append, List.length_singleton] at hlen ⊢
    split at hlen <;> simp at hlen <;> omega

/-- **Grouping**: every group holds exactly the edits below its parent, in their order. -/
theorem groupByParent_spec (zs : List (Zipper N)) : Grouped zs (groupByParent zs) := by
  induction zs using List.reverseRecOn with
  | nil => constructor <;> simp [groupByParent]
  | append_singleton zs z ih =>
    rw [groupByParent, List.foldl_append, List.foldl_cons, List.foldl_nil, ← groupByParent]
    cases hz : z.parent? with
    | none => exact ih.skip (by simp [parentId, hz])
    | some parent => exact ih.add (by simp [parentId, hz])

/-! ### One round in general -/

/-- The position of the parent of a group. -/
def position (group : List (Zipper N)) : List (Crumb N) :=
  (group.head?.map fun z => z.crumbs.tail).getD []

/-- A group **survives** if whatever replaces its position puts its parent there. -/
def survives (rest : List (Zipper N)) (g : Identity N × List (Zipper N)) : Bool :=
  rest.all fun z => !z.replacesAt (position g.2) || identity z.node = g.1

/-- A group **gives way** if the first edit that replaces its position puts another node there. -/
def givesWay (rest : List (Zipper N)) (g : Identity N × List (Zipper N)) : Bool :=
  (rest.find? (·.replacesAt (position g.2))).any fun z => identity z.node ≠ g.1

/-- An edit is **absorbed** by a group if it puts the parent of the group at its position. -/
def absorbs (g : Identity N × List (Zipper N)) (z : Zipper N) : Bool :=
  z.replacesAt (position g.2) && identity z.node = g.1

omit [Identified N] in
theorem eraseP_eq_filter {p : Zipper N → Bool} {zs : List (Zipper N)}
    (hone : zs.Pairwise fun y z => ¬(p y = true ∧ p z = true)) :
    zs.eraseP p = zs.filter fun z => !p z := by
  induction zs with
  | nil => rfl
  | cons z zs ih =>
    rw [List.pairwise_cons] at hone
    by_cases hz : p z = true
    · have hrest : zs.filter (fun y => !p y) = zs :=
        List.filter_eq_self.mpr fun y hy => by simpa [hz] using hone.1 y hy
      simp [hz, hrest]
    · simp [hz, ih hone.2]

omit [Identified N] in
/-- If all edits of a list that satisfy `p` are one, it is the one that is found. -/
theorem eq_of_find? {p : Zipper N → Bool} {zs : List (Zipper N)} {y z : Zipper N}
    (hone : zs.Pairwise fun y z => ¬(p y = true ∧ p z = true)) (hfind : zs.find? p = some y)
    (hz : z ∈ zs) (hp : p z = true) : z = y := by
  induction zs with
  | nil => simp at hz
  | cons x zs ih =>
    rw [List.pairwise_cons] at hone
    by_cases hx : p x = true
    · have hyx : x = y := by simpa [hx] using hfind
      rcases List.mem_cons.mp hz with rfl | hz
      · exact hyx
      · exact absurd ⟨hx, hp⟩ (hone.1 z hz)
    · have hzx : z ∈ zs := by
        rcases List.mem_cons.mp hz with rfl | hz
        · exact absurd hp hx
        · exact hz
      rw [List.find?_cons_of_neg hx] at hfind
      exact ih hone.2 hfind hzx

section Settle

variable (adapter : Adapter σ N) (made : Identity N × List (Zipper N) → N → Prop)

/-- A group can be moved up, whatever the state. -/
def Moves (g : Identity N × List (Zipper N)) : Prop :=
  ∀ s, ∃ new s', (moveUpGroup adapter g.2).runWith s =
    (.ok { node := new, crumbs := position g.2 }, s') ∧ made g new

/-- **What becomes of a group**: it is dropped if it gives way, and otherwise it moves up and the
first replacement of its position is taken out. -/
theorem settle_cons (g : Identity N × List (Zipper N)) (groups : List (Identity N × List (Zipper N)))
    (rest : List (Zipper N)) :
    settle adapter (g :: groups) rest =
      if givesWay rest g then settle adapter groups rest
      else moveUpGroup adapter g.2 >>= fun moved =>
        settle adapter groups (rest.eraseP (·.replacesAt (position g.2))) >>= fun out =>
          pure (out.1, moved :: out.2) := by
  obtain ⟨p, group⟩ := g
  have hposition : (group.head?.map fun z => z.crumbs.tail).getD [] = position group := rfl
  simp only [settle, givesWay, hposition]
  cases hfind : rest.find? (·.replacesAt (position group)) with
  | none =>
    rw [List.eraseP_of_forall_not (by simpa using hfind)]
    rfl
  | some z =>
    by_cases hid : identity z.node = p
    · simp [hid]
    · simp [hid]

/-- A group whose position is not replaced moves up. -/
theorem settle_cons_of_none {g : Identity N × List (Zipper N)} {rest : List (Zipper N)}
    (groups : List (Identity N × List (Zipper N)))
    (hnone : ∀ z ∈ rest, z.replacesAt (position g.2) = false) :
    settle adapter (g :: groups) rest = moveUpGroup adapter g.2 >>= fun moved =>
      settle adapter groups rest >>= fun out => pure (out.1, moved :: out.2) := by
  have hfind : rest.find? (·.replacesAt (position g.2)) = none :=
    List.find?_eq_none.mpr fun z hz => by simp [hnone z hz]
  rw [settle_cons, givesWay, hfind, List.eraseP_of_forall_not (by simpa using hnone)]
  rfl

/-- A lone group moves up where no edits are above its level. -/
theorem settle_singleton (g : Identity N × List (Zipper N)) :
    settle adapter [g] [] = moveUpGroup adapter g.2 >>= fun moved => pure ([], [moved]) := by
  rw [settle_cons_of_none adapter [] (by simp), settle]
  rfl

/-- A group gives way to an edit that replaces its position. -/
theorem exists_of_givesWay {g : Identity N × List (Zipper N)} {rest : List (Zipper N)}
    (h : givesWay rest g = true) :
    ∃ z ∈ rest, z.replacesAt (position g.2) = true ∧ identity z.node ≠ g.1 := by
  rw [givesWay, Option.any_eq_true] at h
  obtain ⟨z, hfind, hid⟩ := h
  exact ⟨z, List.mem_of_find?_eq_some hfind, by simpa using List.find?_some hfind,
    by simpa using hid⟩

section One

variable {g : Identity N × List (Zipper N)} {rest : List (Zipper N)}
  (hone : rest.Pairwise fun y z =>
    ¬(y.replacesAt (position g.2) = true ∧ z.replacesAt (position g.2) = true))

include hone

/-- Where a position is replaced once at most, the groups that survive are those that do not give
way. -/
theorem survives_eq_not_givesWay : survives rest g = !givesWay rest g := by
  rw [Bool.eq_iff_iff, Bool.not_eq_true', givesWay, survives, List.all_eq_true]
  cases hfind : rest.find? (·.replacesAt (position g.2)) with
  | none =>
    have hnone : ∀ z ∈ rest, z.replacesAt (position g.2) = false := by simpa using hfind
    exact iff_of_true (fun z hz => by simp [hnone z hz]) rfl
  | some z =>
    have hat : z.replacesAt (position g.2) = true := by simpa using List.find?_some hfind
    refine ⟨fun hall => ?_, fun hid y hy => ?_⟩
    · simpa [hat] using hall z (List.mem_of_find?_eq_some hfind)
    · by_cases hy' : y.replacesAt (position g.2) = true
      · rw [eq_of_find? hone hfind hy hy']
        simpa [hat] using hid
      · simp [hy']

/-- What a group that survives absorbs is the replacement of its position. -/
theorem eraseP_of_survives (hsurvives : survives rest g = true) :
    rest.eraseP (·.replacesAt (position g.2)) = rest.filter fun z => !absorbs g z := by
  rw [eraseP_eq_filter hone]
  refine List.filter_congr fun z hz => ?_
  have hz := List.all_eq_true.mp hsurvives z hz
  rw [absorbs]
  by_cases hat : z.replacesAt (position g.2) = true
  · simpa [hat] using hz
  · simp [hat]

/-- A group that does not survive absorbs nothing. -/
theorem filter_absorbs_of_not_survives (hsurvives : survives rest g = false) :
    (rest.filter fun z => !absorbs g z) = rest := by
  obtain ⟨z, hz, hother⟩ := List.all_eq_false.mp hsurvives
  simp only [Bool.or_eq_true, Bool.not_eq_true', decide_eq_true_eq, not_or,
    Bool.not_eq_false] at hother
  refine List.filter_eq_self.mpr fun y hy => ?_
  by_cases hy' : y.replacesAt (position g.2) = true
  · -- the edit is the one that the group gives way to
    have hfound : (rest.find? (·.replacesAt (position g.2))).isSome = true :=
      List.find?_isSome.mpr ⟨z, hz, hother.1⟩
    obtain ⟨w, hw⟩ := Option.isSome_iff_exists.mp hfound
    rw [eq_of_find? hone hw hy hy', ← eq_of_find? hone hw hz hother.1]
    simp [absorbs, hother.2]
  · simp [absorbs, hy']

end One

/-- Groups at other positions survive without what a group absorbs if they survive with it. -/
theorem survives_filter_absorbs {g h : Identity N × List (Zipper N)} {rest : List (Zipper N)}
    (hapart : ∀ z : Zipper N,
      z.replacesAt (position g.2) = true → z.replacesAt (position h.2) = false) :
    survives (rest.filter fun z => !absorbs g z) h = survives rest h := by
  rw [Bool.eq_iff_iff, survives, survives]
  simp only [List.all_eq_true, List.mem_filter]
  refine ⟨fun hall z hz => ?_, fun hall z hz => hall z hz.1⟩
  by_cases hg : absorbs g z = true
  · rw [absorbs, Bool.and_eq_true] at hg
    simp [hapart z hg.1]
  · exact hall z ⟨hz, by simpa using hg⟩

theorem filter_absorbs_cons (g : Identity N × List (Zipper N))
    (groups : List (Identity N × List (Zipper N))) (rest : List (Zipper N)) :
    ((rest.filter fun z => !absorbs g z).filter fun z => !groups.any fun g => absorbs g z) =
      rest.filter fun z => !(g :: groups).any fun g => absorbs g z := by
  rw [List.filter_filter]
  refine List.filter_congr fun z _ => ?_
  rw [List.any_cons, Bool.not_or, Bool.and_comm]

/-- **One level in general**: the groups that survive move up, and the edits they absorb are gone. -/
theorem settle_ok {groups : List (Identity N × List (Zipper N))} {rest : List (Zipper N)}
    (hapart : groups.Pairwise fun g h => ∀ z : Zipper N,
      z.replacesAt (position g.2) = true → z.replacesAt (position h.2) = false)
    (hone : ∀ g ∈ groups, rest.Pairwise fun y z =>
      ¬(y.replacesAt (position g.2) = true ∧ z.replacesAt (position g.2) = true))
    (hmoves : ∀ g ∈ groups, survives rest g = true → Moves adapter made g) (s : σ) :
    ∃ moved s', (settle adapter groups rest).runWith s =
        (.ok (rest.filter fun z => !groups.any fun g => absorbs g z, moved), s') ∧
      List.Forall₂ (fun g m => ∃ new, m = { node := new, crumbs := position g.2 } ∧ made g new)
        (groups.filter (survives rest)) moved := by
  induction groups generalizing rest s with
  | nil =>
    refine ⟨[], s, ?_, by simp⟩
    rw [settle, Attempt.runWith_pure]
    simp
  | cons g groups ih =>
    rw [List.pairwise_cons] at hapart
    rw [List.forall_mem_cons] at hone hmoves
    -- taking out what the first group absorbs does not concern the others
    have hrest : ∀ h ∈ groups, survives (rest.filter fun z => !absorbs g z) h = survives rest h :=
      fun h hh => survives_filter_absorbs (hapart.1 h hh)
    have hnext : ∀ t, ∃ moved s',
        (settle adapter groups (rest.filter fun z => !absorbs g z)).runWith t =
          (.ok (rest.filter fun z => !(g :: groups).any fun g => absorbs g z, moved), s') ∧
        List.Forall₂ (fun g m => ∃ new, m = { node := new, crumbs := position g.2 } ∧ made g new)
          (groups.filter (survives rest)) moved := by
      intro t
      obtain ⟨moved, s', hrun, hmoved⟩ := ih hapart.2 (fun h hh => (hone.2 h hh).filter _)
        (fun h hh hs => hmoves.2 h hh (by rwa [hrest h hh] at hs)) t
      rw [filter_absorbs_cons] at hrun
      rw [List.filter_congr hrest] at hmoved
      exact ⟨moved, s', hrun, hmoved⟩
    rw [settle_cons]
    cases hsurvives : survives rest g with
    | true =>
      obtain ⟨new, t, hmove, hmade⟩ := hmoves.1 hsurvives s
      obtain ⟨moved, s', hrun, hmoved⟩ := hnext t
      rw [← eraseP_of_survives hone.1 hsurvives] at hrun
      refine ⟨{ node := new, crumbs := position g.2 } :: moved, s', ?_, ?_⟩
      · rw [survives_eq_not_givesWay hone.1, Bool.not_eq_true'] at hsurvives
        rw [hsurvives, if_neg Bool.false_ne_true, Attempt.runWith_bind_ok hmove,
          Attempt.runWith_bind_ok hrun]
        rfl
      · rw [List.filter_cons_of_pos hsurvives]
        exact .cons ⟨new, rfl, hmade⟩ hmoved
    | false =>
      obtain ⟨moved, s', hrun, hmoved⟩ := hnext s
      rw [filter_absorbs_of_not_survives hone.1 hsurvives] at hrun
      refine ⟨moved, s', ?_, ?_⟩
      · rw [survives_eq_not_givesWay hone.1, Bool.not_eq_false'] at hsurvives
        rw [hsurvives, if_pos rfl]
        exact hrun
      · rw [List.filter_cons_of_neg (by simp [hsurvives])]
        exact hmoved

end Settle

/-! ### Positions of a coherent batch -/

omit [Identified N] in
theorem Crumb.ext_of {c d : Crumb N} (hnode : c.node = d.node) (hloc : c.location = d.location) :
    c = d := by
  cases c
  cases d
  simp_all

theorem suffix_of_way {way : Way N} {crumbs : List (Crumb N)} (h : way <:+ Crumb.way crumbs) :
    ∃ above, above <:+ crumbs ∧ Crumb.way above = way := by
  obtain ⟨front, hfront⟩ := h
  refine ⟨crumbs.drop front.length, List.drop_suffix _ _, ?_⟩
  rw [Crumb.way, List.map_drop]
  change (Crumb.way crumbs).drop front.length = way
  rw [← hfront, List.drop_left]

/-- An edit of the batch is made at a position, or below it. -/
def Trodden (b : Batch N) (crumbs : List (Crumb N)) : Prop :=
  ∃ y ∈ b.zippers, crumbs <:+ y.crumbs

omit [Identified N] in
theorem Trodden.tail {b : Batch N} {c : Crumb N} {above : List (Crumb N)}
    (h : b.Trodden (c :: above)) : b.Trodden above :=
  h.imp fun _ hy => ⟨hy.1, (List.suffix_cons _ _).trans hy.2⟩

variable {adapter : Adapter σ N} {b : Batch N}

omit [Identified N] in
/-- Where crumbs lead from. -/
theorem Reaches.tail {c : Crumb N} {above : List (Crumb N)} {child : N}
    (h : b.Reaches adapter (c :: above) child) :
    (adapter.children c.node).at? c.location = some child ∧
      ∃ node, b.Reaches adapter above node ∧ (c.node = node ∨
        ∃ z ∈ b.zippers, z.edit = .replace ∧ z.crumbs = above) := by
  cases h with
  | down habove hfound => exact ⟨hfound, _, habove, .inl rfl⟩
  | through habove hmem hedit hhere hfound =>
    exact ⟨hfound, _, habove, .inr ⟨_, hmem, hedit, hhere⟩⟩

omit [Identified N] in
/-- Crumbs lead to one node only. -/
theorem Reaches.unique {crumbs : List (Crumb N)} {m n : N} (hm : b.Reaches adapter crumbs m)
    (hn : b.Reaches adapter crumbs n) : m = n := by
  cases crumbs with
  | nil =>
    cases hm
    cases hn
    rfl
  | cons c above =>
    have hm := hm.tail.1
    rw [hn.tail.1] at hm
    exact (Option.some.inj hm).symm

omit [Identified N] in
theorem Reaches.of_suffix {above crumbs : List (Crumb N)} {node : N}
    (h : b.Reaches adapter crumbs node) (hsuffix : above <:+ crumbs) :
    ∃ m, b.Reaches adapter above m := by
  induction crumbs generalizing node with
  | nil =>
    rw [List.suffix_nil.mp hsuffix]
    exact ⟨node, h⟩
  | cons c crumbs ih =>
    rcases List.suffix_cons_iff.mp hsuffix with rfl | hsuffix
    · exact ⟨node, h⟩
    · obtain ⟨-, m, hm, -⟩ := h.tail
      exact ih hm hsuffix

section Coherent

variable (hb : b.Coherent adapter)

include hb

theorem Coherent.reaches {crumbs : List (Crumb N)} (h : b.Trodden crumbs) :
    ∃ node, b.Reaches adapter crumbs node := by
  obtain ⟨y, hy, hsuffix⟩ := h
  obtain ⟨node, hnode⟩ := hb.reached y hy
  exact hnode.of_suffix hsuffix

/-- **Ways are positions**: two trodden positions with one way are the same. -/
theorem Coherent.crumbs_eq {xs ys : List (Crumb N)} (hx : b.Trodden xs) (hy : b.Trodden ys)
    (hway : Crumb.way xs = Crumb.way ys) : xs = ys := by
  cases xs with
  | nil => simpa using congrArg List.length hway.symm
  | cons c above =>
    cases ys with
    | nil => simp at hway
    | cons d beyond =>
      obtain ⟨x, hxmem, hx⟩ := hx
      obtain ⟨y, hymem, hy⟩ := hy
      simp only [Crumb.way_cons, List.cons.injEq, Prod.mk.injEq] at hway
      obtain ⟨⟨hid, hloc⟩, habove⟩ := hway
      have hlen : above.length = beyond.length := by
        simpa using congrArg List.length habove
      obtain ⟨hnode, rfl⟩ := hb.apart x hxmem y hymem c d above beyond hx hy hlen hid
      rw [Crumb.ext_of hnode hloc]

theorem Coherent.crumbs_eq_of_way {z : Zipper N} (hz : z ∈ b.zippers) {crumbs : List (Crumb N)}
    (h : b.Trodden crumbs) (hway : z.way = Crumb.way crumbs) : z.crumbs = crumbs :=
  hb.crumbs_eq ⟨z, hz, List.suffix_rfl⟩ h hway

/-- The first crumb decides about the position on its level. -/
theorem Coherent.eq_of_head {xs ys : List (Crumb N)} (hx : b.Trodden xs) (hy : b.Trodden ys)
    (hlen : xs.length = ys.length)
    (hhead : xs.head?.map Crumb.step = ys.head?.map Crumb.step) : xs = ys := by
  cases xs with
  | nil => exact (List.eq_nil_of_length_eq_zero hlen.symm).symm
  | cons c above =>
    cases ys with
    | nil => simp at hlen
    | cons d beyond =>
      obtain ⟨x, hxmem, hx⟩ := hx
      obtain ⟨y, hymem, hy⟩ := hy
      simp only [List.head?_cons, Option.map_some, Option.some.injEq, Crumb.step,
        Prod.mk.injEq] at hhead
      obtain ⟨hnode, rfl⟩ := hb.apart x hxmem y hymem c d above beyond hx hy (by simpa using hlen)
        hhead.1
      rw [Crumb.ext_of hnode hhead.2]

theorem Coherent.carried_length_le (edit : Edit) (hedit : edit.inserts = false) (way : Way N) :
    (carried b.zippers way edit).length ≤ 1 := by
  have hpair : (b.zippers.filter fun z => z.way = way ∧ z.edit = edit).Pairwise
      fun _ _ => False := by
    refine (hb.once.filter _).imp_of_mem fun {y z} hy hz hyz => ?_
    simp only [List.mem_filter, decide_eq_true_eq] at hy hz
    exact hyz (by rw [hy.2.2, hedit]) (by rw [hz.2.2, hedit]) (hy.2.1.trans hz.2.1.symm)
  rw [carried, List.length_map]
  generalize b.zippers.filter _ = zs at hpair
  match zs, hpair with
  | [], _ => simp
  | [_], _ => simp
  | y :: z :: _, hpair => exact ((List.pairwise_cons.mp hpair).1 z (by simp)).elim

/-- A replaced position has the replacement standing on it. -/
theorem Coherent.carried_replace {z : Zipper N} (hz : z ∈ b.zippers) (hedit : z.edit = .replace) :
    carried b.zippers z.way .replace = [z.node] := by
  have hmem : z.node ∈ carried b.zippers z.way .replace := mem_carried.mpr ⟨z, hz, rfl, hedit, rfl⟩
  have hlen := hb.carried_length_le .replace rfl z.way
  match hc : carried b.zippers z.way .replace, hlen, hmem with
  | [m], _, hmem => rw [List.mem_singleton.mp hmem]

theorem Coherent.standing_replaced {z : Zipper N} (hz : z ∈ b.zippers) (hedit : z.edit = .replace)
    (node : N) : standing b.zippers (Crumb.way z.crumbs) node = z.node := by
  rw [standing, show Crumb.way z.crumbs = z.way from rfl, hb.carried_replace hz hedit]
  rfl

/-- A position that is not replaced keeps the node it had. -/
theorem Coherent.standing_original {above : List (Crumb N)}
    (hnone : ¬∃ z ∈ b.zippers, z.edit = .replace ∧ z.crumbs = above) (habove : b.Trodden above)
    (node : N) : standing b.zippers (Crumb.way above) node = node := by
  have hnil : carried b.zippers (Crumb.way above) .replace = [] :=
    carried_eq_nil fun z hz hway hedit =>
      hnone ⟨z, hz, hedit, hb.crumbs_eq_of_way hz habove hway⟩
  rw [standing, hnil]
  rfl

/-- Through a position that is not replaced edits run by the node that was there. -/
theorem Coherent.eq_original {c : Crumb N} {above : List (Crumb N)}
    (hnone : ¬∃ z ∈ b.zippers, z.edit = .replace ∧ z.crumbs = above)
    (hc : b.Trodden (c :: above)) {node : N} (hnode : b.Reaches adapter above node) :
    c.node = node := by
  obtain ⟨child, hchild⟩ := hb.reaches hc
  obtain ⟨-, m, hm, heq | hreplaced⟩ := hchild.tail
  · exact heq.trans (hm.unique hnode)
  · exact absurd hreplaced hnone

/-- A node that edits run through is the one that stands at its position, if it has the identity of
that one. -/
theorem Coherent.eq_standing {c : Crumb N} {above : List (Crumb N)} (hc : b.Trodden (c :: above))
    {node : N} (hnode : b.Reaches adapter above node)
    (hid : identity c.node = identity (standing b.zippers (Crumb.way above) node)) :
    c.node = standing b.zippers (Crumb.way above) node := by
  by_cases hrep : ∃ z ∈ b.zippers, z.edit = .replace ∧ z.crumbs = above
  · obtain ⟨z, hz, hedit, rfl⟩ := hrep
    obtain ⟨y, hy, hsuffix⟩ := hc
    rw [hb.standing_replaced hz hedit] at hid ⊢
    exact hb.fresh z hz hedit y hy c hsuffix hid
  · rw [hb.standing_original hrep hc.tail]
    exact hb.eq_original hrep hc hnode

/-- Edits run through a node at a position if and only if the batch edits something below it. -/
theorem Coherent.editsBelow_iff {above : List (Crumb N)} (habove : b.Trodden above) {node : N}
    (hnode : b.Reaches adapter above node) :
    editsBelow b.zippers (standing b.zippers (Crumb.way above) node) (Crumb.way above) = true ↔
      ∃ l, b.Trodden (⟨standing b.zippers (Crumb.way above) node, l⟩ :: above) := by
  simp only [editsBelow, List.any_eq_true, Way.passes_iff]
  constructor
  · rintro ⟨y, hy, l, hl⟩
    obtain ⟨xs, hxs, hway⟩ := suffix_of_way hl
    cases xs with
    | nil => simp at hway
    | cons c beyond =>
      simp only [Crumb.way_cons, List.cons.injEq, Prod.mk.injEq] at hway
      have hc : b.Trodden (c :: beyond) := ⟨y, hy, hxs⟩
      obtain rfl := hb.crumbs_eq hc.tail habove hway.2
      have hnode' := hb.eq_standing hc hnode hway.1.1
      refine ⟨l, y, hy, ?_⟩
      rwa [← hnode', ← hway.1.2]
  · rintro ⟨l, y, hy, hsuffix⟩
    refine ⟨y, hy, l, ?_⟩
    exact hsuffix.map Crumb.step

end Coherent

end Batch

end Arborist
