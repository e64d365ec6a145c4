import Arborist.Proofs.Rounds
import Arborist.Proofs.DeletedRoot

/-!
# Reconciliation comes to an end

A batch may be anything: its edits may contradict each other, stand at one position several times,
or have crumbs that lead nowhere. Even so every round of `Batch.reconcile` fails or brings the
deepest edits **exactly one level** up, and never loses all of them (`round_progress`).

* A group that moves up leaves an edit one level up. A group is dropped only for a replacement one
  level up, which stays; and if a later group absorbs that replacement, then this one moves up
  (`settle_progress`).
* `Rounds` is the loop as it goes by the deepest edit that is left, with no bound. It takes at most
  as many rounds as the deepest edit has crumbs, and comes to what `reconcile` comes to
  (`rounds_reconcile`).
* All edits of a group have a parent (`Anchored`), so a group is not empty and its crumbs can be
  taken apart. What fails in a round is the splicing at a location, or the adapter (`Blamed`).
* `toRoot_progress` puts this together for every batch.
-/

namespace Arborist

variable {σ N : Type}

namespace Batch

/-! ### Groups with a parent -/

/-- A group is **anchored** if it has edits, and all of them have a parent. -/
structure Anchored (group : List (Zipper N)) : Prop where
  nonempty : group ≠ []
  crumbs : ∀ z ∈ group, z.crumbs ≠ []

section Anchored

variable {adapter : Adapter σ N} {group : List (Zipper N)} {d : Nat} {s s' : σ}

/-- What an anchored group does: none of the cases without an edit or without a parent occurs. -/
theorem Anchored.moveUpGroup_eq (h : Anchored group) (adapter : Adapter σ N) :
    ∃ first ∈ group, ∃ crumb above, first.crumbs = crumb :: above ∧
      moveUpGroup adapter group = Attempt.ofExcept
        (spliceAll (adapter.children crumb.node) (fun _ => 0) (inOrder group)) >>= fun children =>
          adapter.rebuild crumb.node children >>= fun parent =>
            pure { node := parent, crumbs := above } := by
  cases horder : inOrder group with
  | nil =>
    have hlength := length_inOrder group
    rw [horder] at hlength
    exact absurd (List.eq_nil_of_length_eq_zero hlength.symm) h.nonempty
  | cons first rest =>
    have hfirst : first ∈ group := mem_inOrder.mp (horder ▸ List.mem_cons_self)
    obtain ⟨crumb, above, hcrumbs⟩ := List.exists_cons_of_ne_nil (h.crumbs first hfirst)
    refine ⟨first, hfirst, crumb, above, hcrumbs, ?_⟩
    simp only [moveUpGroup, horder, hcrumbs]

/-- The replacement of the parent is **one level up**. -/
theorem Anchored.depth_of_moveUpGroup (h : Anchored group) (hd : ∀ z ∈ group, z.depth = d + 1)
    {moved : Zipper N} (hmove : (moveUpGroup adapter group).runWith s = (.ok moved, s')) :
    moved.depth = d := by
  obtain ⟨first, hfirst, crumb, above, hcrumbs, heq⟩ := h.moveUpGroup_eq adapter
  rw [heq] at hmove
  obtain ⟨children, s₁, -, hmove⟩ := Attempt.exists_of_bind_ok hmove
  obtain ⟨parent, s₂, -, hmove⟩ := Attempt.exists_of_bind_ok hmove
  obtain rfl := Except.ok.inj (Prod.mk.inj hmove).1
  have hdepth := hd first hfirst
  rw [Zipper.depth, hcrumbs, List.length_cons] at hdepth
  exact Nat.succ.inj hdepth

/-! ### Errors -/

/-- What is to **blame** for an error of a round: a location that the children do not have, or the
adapter. -/
inductive Blamed (adapter : Adapter σ N) : Error → Prop where
  | missing (role : Role) : Blamed adapter (.missingRole role)
  | range (location : Location) (count : Nat) : Blamed adapter (.outOfRange location count)
  | rebuild {node : N} {c : Children N} {s s' : σ} {e : Error}
      (failed : (adapter.rebuild node c).runWith s = (.error e, s')) : Blamed adapter e

theorem blamed_of_splice (adapter : Adapter σ N) {c : Children N} {l : Location} {shift : Int}
    {edit : Edit} {node : N} {e : Error} (h : c.splice l shift edit node = .error e) :
    Blamed adapter e := by
  rw [Children.splice] at h
  split at h
  · cases h
    exact .missing _
  · dsimp only at h
    split at h
    · cases h
    · cases h
      exact .range _ _

/-- Splicing fails at a location, and not for want of one. -/
theorem blamed_of_spliceAll (adapter : Adapter σ N) {c : Children N} {shift : Role → Int}
    {zs : List (Zipper N)} (hzs : ∀ z ∈ zs, z.crumbs ≠ []) {e : Error}
    (h : spliceAll c shift zs = .error e) : Blamed adapter e := by
  induction zs generalizing c shift with
  | nil => cases h
  | cons z zs ih =>
    obtain ⟨hz, hrest⟩ := List.forall_mem_cons.mp hzs
    obtain ⟨crumb, above, hcrumbs⟩ := List.exists_cons_of_ne_nil hz
    have hlocation : z.location? = some crumb.location := by
      rw [Zipper.location?, hcrumbs]
      rfl
    rw [spliceAll, hlocation] at h
    dsimp only at h
    cases hsplice : c.splice crumb.location (shift crumb.location.role) z.edit z.node with
    | error e' =>
      rw [hsplice] at h
      cases h
      exact blamed_of_splice adapter hsplice
    | ok c' =>
      rw [hsplice] at h
      exact ih hrest h

theorem Anchored.blamed_of_moveUpGroup (h : Anchored group) {e : Error}
    (hmove : (moveUpGroup adapter group).runWith s = (.error e, s')) : Blamed adapter e := by
  obtain ⟨first, -, crumb, above, -, heq⟩ := h.moveUpGroup_eq adapter
  rw [heq] at hmove
  rcases Attempt.cases_of_bind_error hmove with hsplice | ⟨children, s₁, -, hrest⟩
  · cases hspliced : spliceAll (adapter.children crumb.node) (fun _ => 0) (inOrder group) with
    | ok children =>
      rw [hspliced] at hsplice
      cases hsplice
    | error e' =>
      rw [hspliced] at hsplice
      cases hsplice
      exact blamed_of_spliceAll adapter (fun z hz => h.crumbs z (mem_inOrder.mp hz)) hspliced
  · rcases Attempt.cases_of_bind_error hrest with hrebuild | ⟨parent, s₂, -, hpure⟩
    · exact .rebuild hrebuild
    · cases hpure

/-- The two errors that need a group without an edit or without a parent are those of an adapter
that **raises them itself**. -/
theorem Blamed.of_unreachable {e : Error} (h : Blamed adapter e)
    (he : e = .emptyGroup ∨ e = .rootHasNoParent) :
    ∃ node c s s', (adapter.rebuild node c).runWith s = (.error e, s') := by
  have hopening : e.message.toList.take 7 = "Can't m".toList ∨
      e.message.toList.take 7 = "The roo".toList := by
    rcases he with rfl | rfl
    · exact .inl (by decide)
    · exact .inr (by decide)
  cases h with
  | rebuild failed => exact ⟨_, _, _, _, failed⟩
  | missing role =>
    have hmessage : (Error.missingRole role).message.toList.take 7 = "The par".toList := by
      simp [Error.missingRole, Error.violation]
    rw [hmessage] at hopening
    exact absurd hopening (by decide)
  | range location count =>
    have hmessage : (Error.outOfRange location count).message.toList.take 7 = "The loc".toList := by
      simp [Error.outOfRange, Error.violation]
    rw [hmessage] at hopening
    exact absurd hopening (by decide)

end Anchored

/-! ### Rounds -/

section Round

variable [Identified N] {adapter : Adapter σ N} {groups : List (Identity N × List (Zipper N))}
  {g : Identity N × List (Zipper N)} {zs zs' rest rest' moved : List (Zipper N)} {d : Nat}
  {s s' : σ} {e : Error}

omit [Identified N] in
/-- The height of edits that reach a depth and do not go below it. -/
theorem height_eq (h : ∀ z ∈ zs, z.depth ≤ d) (hd : ∃ z ∈ zs, z.depth = d) : height zs = d := by
  obtain ⟨z, hz, hdepth⟩ := hd
  obtain ⟨y, hy, hheight⟩ := exists_depth_eq_height (List.ne_nil_of_mem hz)
  have hle := h y hy
  have hge := depth_le_height hz
  omega

/-- The groups of a level are **anchored**, whatever the edits. -/
theorem anchored_of_mem_groupByParent (hg : g ∈ groupByParent zs) : Anchored g.2 := by
  have hspec := groupByParent_spec zs
  refine ⟨hspec.nonempty g hg, fun z hz => ?_⟩
  rw [hspec.group_eq g hg] at hz
  obtain ⟨c, above, hcrumbs, -⟩ := parentId_eq_some (of_decide_eq_true (List.mem_filter.mp hz).2)
  rw [hcrumbs]
  exact List.cons_ne_nil c above

theorem length_position (h : Anchored g.2) (hd : ∀ z ∈ g.2, z.depth = d + 1) :
    (position g.2).length = d := by
  obtain ⟨first, others, hfirst⟩ := List.exists_cons_of_ne_nil h.nonempty
  have hdepth := hd first (hfirst ▸ List.mem_cons_self)
  rw [Zipper.depth] at hdepth
  rw [position, hfirst, List.head?_cons, Option.map_some, Option.getD_some, List.length_tail,
    hdepth, Nat.add_sub_cancel]

theorem depth_of_replacesAt {z : Zipper N} {crumbs : List (Crumb N)}
    (h : z.replacesAt crumbs = true) : z.depth = crumbs.length := by
  rw [Zipper.replacesAt, Bool.and_eq_true, Bool.and_eq_true] at h
  exact eq_of_beq h.1.2

/-- **Settling makes progress**: what is left is of the level above or higher, and some edit is of
the level above, if there was a group to settle or an edit of that level. -/
theorem settle_progress
    (hgroups : ∀ g ∈ groups, Anchored g.2 ∧ ∀ z ∈ g.2, z.depth = d + 1)
    (h : (settle adapter groups rest).runWith s = (.ok (rest', moved), s')) :
    rest'.Sublist rest ∧ (∀ z ∈ moved, z.depth = d) ∧
      (groups ≠ [] ∨ (∃ z ∈ rest, z.depth = d) → ∃ z ∈ rest' ++ moved, z.depth = d) := by
  induction groups generalizing rest moved s with
  | nil =>
    cases h
    refine ⟨List.Sublist.refl _, nofun, fun hsome => ?_⟩
    rw [List.append_nil]
    exact hsome.resolve_left fun hne => hne rfl
  | cons g groups ih =>
    obtain ⟨⟨hanchored, hdepth⟩, hothers⟩ := List.forall_mem_cons.mp hgroups
    rw [settle_cons] at h
    split at h
    · -- the group is dropped, and what it is dropped for is of the level above
      next hgives =>
      obtain ⟨z, hz, hat, -⟩ := exists_of_givesWay hgives
      obtain ⟨hsub, hmoved, hleft⟩ := ih hothers h
      refine ⟨hsub, hmoved, fun _ => hleft (.inr ⟨z, hz, ?_⟩)⟩
      exact (depth_of_replacesAt hat).trans (length_position hanchored hdepth)
    · obtain ⟨m, t, hmove, h⟩ := Attempt.exists_of_bind_ok h
      obtain ⟨⟨rest₁, others⟩, t', hsettle, hpure⟩ := Attempt.exists_of_bind_ok h
      cases hpure
      obtain ⟨hsub, hmoved, -⟩ := ih hothers hsettle
      have hm : m.depth = d := hanchored.depth_of_moveUpGroup hdepth hmove
      exact ⟨hsub.trans List.eraseP_sublist, List.forall_mem_cons.mpr ⟨hm, hmoved⟩,
        fun _ => ⟨m, List.mem_append_right _ List.mem_cons_self, hm⟩⟩

/-- The groups of the deepest level, and there is one. -/
theorem groups_of_height (h : height zs = d + 1) :
    levelGroups zs (d + 1) ≠ [] ∧
      ∀ g ∈ levelGroups zs (d + 1), Anchored g.2 ∧ ∀ z ∈ g.2, z.depth = d + 1 := by
  have hspec := levelGroups_spec zs (d + 1)
  have hne : zs ≠ [] := by
    rintro rfl
    cases h
  constructor
  · obtain ⟨z, hz, hdepth⟩ := exists_depth_eq_height hne
    rw [h] at hdepth
    have hlength : z.crumbs.length = d + 1 := hdepth
    obtain ⟨crumb, above, hcrumbs⟩ := List.exists_cons_of_length_eq_add_one hlength
    have hparent : parentId z = some (identity crumb.node) := by
      rw [parentId, Zipper.parent?, hcrumbs]
      rfl
    have hmem := hspec.covers z (List.mem_filter.mpr ⟨hz, by simpa using hdepth⟩) _ hparent
    exact fun hnil => by simp [hnil] at hmem
  · intro g hg
    refine ⟨anchored_of_mem_groupByParent hg, fun z hz => ?_⟩
    rw [hspec.group_eq g hg] at hz
    simpa using (List.mem_filter.mp (List.mem_filter.mp hz).1).2

/-- **Every round makes progress**: it fails, or it leaves edits, and the deepest of them is exactly
one level higher. -/
theorem round_progress (hheight : height zs = d + 1)
    (h : (round adapter (d + 1) zs).runWith s = (.ok zs', s')) : zs' ≠ [] ∧ height zs' = d := by
  rw [Batch.round, List.partition_eq_filter_filter] at h
  obtain ⟨⟨rest', moved⟩, t, hsettle, hpure⟩ := Attempt.exists_of_bind_ok h
  cases hpure
  obtain ⟨hne, hgroups⟩ := groups_of_height hheight
  obtain ⟨hsub, hmoved, hleft⟩ := settle_progress hgroups hsettle
  have hd : ∃ z ∈ rest' ++ moved, z.depth = d := hleft (.inl hne)
  refine ⟨?_, height_eq (fun z hz => ?_) hd⟩
  · obtain ⟨z, hz, -⟩ := hd
    exact List.ne_nil_of_mem hz
  · rcases List.mem_append.mp hz with hz | hz
    · obtain ⟨hzs, hnot⟩ := List.mem_filter.mp (hsub.subset hz)
      have hle := depth_le_height hzs
      have hdepth : z.depth ≠ d + 1 := by simpa using hnot
      omega
    · exact Nat.le_of_eq (hmoved z hz)

theorem settle_error (h : (settle adapter groups rest).runWith s = (.error e, s')) :
    ∃ g ∈ groups, ∃ t t', (moveUpGroup adapter g.2).runWith t = (.error e, t') := by
  induction groups generalizing rest s with
  | nil => cases h
  | cons g groups ih =>
    have hlater : ∀ {kept : List (Zipper N)} {t : σ},
        (settle adapter groups kept).runWith t = (.error e, s') →
          ∃ g' ∈ g :: groups, ∃ t t', (moveUpGroup adapter g'.2).runWith t = (.error e, t') := by
      intro kept t hsettle
      obtain ⟨g', hg', hmove⟩ := ih hsettle
      exact ⟨g', List.mem_cons_of_mem _ hg', hmove⟩
    rw [settle_cons] at h
    split at h
    · exact hlater h
    rcases Attempt.cases_of_bind_error h with hmove | ⟨m, t, -, h⟩
    · exact ⟨g, List.mem_cons_self, s, s', hmove⟩
    rcases Attempt.cases_of_bind_error h with hsettle | ⟨out, t', -, hpure⟩
    · exact hlater hsettle
    · cases hpure

/-- A round fails by a location that is not there, or by the adapter. -/
theorem blamed_of_round {depth : Nat} (h : (round adapter depth zs).runWith s = (.error e, s')) :
    Blamed adapter e := by
  rcases Attempt.cases_of_bind_error h with hsettle | ⟨out, t, -, hpure⟩
  · obtain ⟨g, hg, t, t', hmove⟩ := settle_error hsettle
    exact (anchored_of_mem_groupByParent hg).blamed_of_moveUpGroup hmove
  · cases hpure

/-! ### The loop -/

/-- The **loop** over the rounds: as long as several edits are left, the deepest of them are moved
up. It comes to an outcome and a state after `n` rounds. -/
inductive Rounds (adapter : Adapter σ N) :
    Nat → List (Zipper N) → σ → Except Error (List (Zipper N)) × σ → Prop where
  | done {zs : List (Zipper N)} {s : σ} (few : zs.length ≤ 1) : Rounds adapter 0 zs s (.ok zs, s)
  | refused {zs : List (Zipper N)} {s : σ} (several : 1 < zs.length) (top : height zs = 0) :
      Rounds adapter 0 zs s (.error .rootEditedTwice, s)
  | failed {zs : List (Zipper N)} {s s' : σ} {e : Error} (several : 1 < zs.length)
      (deep : height zs ≠ 0) (round : (round adapter (height zs) zs).runWith s = (.error e, s')) :
      Rounds adapter 1 zs s (.error e, s')
  | next {zs zs' : List (Zipper N)} {s s' : σ} {n : Nat}
      {out : Except Error (List (Zipper N)) × σ} (several : 1 < zs.length) (deep : height zs ≠ 0)
      (round : (round adapter (height zs) zs).runWith s = (.ok zs', s'))
      (rest : Rounds adapter n zs' s' out) : Rounds adapter (n + 1) zs s out

/-- **The loop ends**, after at most as many rounds as the deepest edit has crumbs. -/
theorem rounds_reconcile (adapter : Adapter σ N) (hheight : height zs = d) (s : σ) :
    ∃ n ≤ d, Rounds adapter n zs s ((reconcile adapter d zs).runWith s) := by
  induction d generalizing zs s with
  | zero =>
    rw [reconcile]
    split
    · next hfew => exact ⟨0, Nat.le_refl 0, .done hfew⟩
    · next hfew => exact ⟨0, Nat.le_refl 0, .refused (Nat.lt_of_not_le hfew) hheight⟩
  | succ d ih =>
    rw [reconcile]
    split
    · next hfew => exact ⟨0, Nat.zero_le _, .done hfew⟩
    · next hfew =>
      have hseveral := Nat.lt_of_not_le hfew
      have hdeep : height zs ≠ 0 := hheight ▸ Nat.succ_ne_zero d
      cases hround : (round adapter (d + 1) zs).runWith s with
      | mk out s₁ =>
        cases out with
        | error e =>
          rw [Attempt.runWith_bind_error hround]
          exact ⟨1, Nat.succ_le_succ (Nat.zero_le d), .failed hseveral hdeep (hheight ▸ hround)⟩
        | ok zs' =>
          obtain ⟨n, hn, hrest⟩ := ih (round_progress hheight hround).2 s₁
          rw [Attempt.runWith_bind_ok hround]
          exact ⟨n + 1, Nat.succ_le_succ hn, .next hseveral hdeep (hheight ▸ hround) hrest⟩

/-- **One edit is left** in the end, if there was one at the start. -/
theorem Rounds.single {n : Nat} {out : Except Error (List (Zipper N)) × σ}
    (h : Rounds adapter n zs s out) (hne : zs ≠ []) (hout : out = (.ok zs', s')) :
    ∃ z, zs' = [z] := by
  induction h with
  | done few =>
    cases hout
    obtain ⟨z, rest, rfl⟩ := List.exists_cons_of_ne_nil hne
    rw [List.length_cons] at few
    exact ⟨z, by rw [List.eq_nil_of_length_eq_zero (by omega : rest.length = 0)]⟩
  | refused => cases hout
  | failed => cases hout
  | next several deep round _ ih =>
    obtain ⟨d, hd⟩ := Nat.exists_eq_succ_of_ne_zero deep
    exact ih (round_progress hd (hd ▸ round)).1 hout

/-- Taking a batch to its root does not depend on the **common root**, if the batch has edits. -/
theorem toRoot_congr (adapter : Adapter σ N) (hne : zs ≠ []) (root root' : N) (s : σ) :
    (toRoot adapter ⟨root, zs⟩).runWith s = (toRoot adapter ⟨root', zs⟩).runWith s := by
  obtain ⟨n, -, hrounds⟩ := rounds_reconcile adapter (rfl : height zs = height zs) s
  cases hrun : (reconcile adapter (height zs) zs).runWith s with
  | mk out t =>
    rw [toRoot, toRoot]
    cases out with
    | error e => rw [Attempt.runWith_bind_error hrun, Attempt.runWith_bind_error hrun]
    | ok zs' =>
      obtain ⟨z, rfl⟩ := hrounds.single hne hrun
      rw [Attempt.runWith_bind_ok hrun, Attempt.runWith_bind_ok hrun]

/-- **Reconciliation makes progress on every batch**, for every adapter and whatever the crumbs of
the edits: a round fails, or leaves edits the deepest of which is exactly one level higher. So the
loop over the rounds ends after at most as many of them as the deepest edit has crumbs, as does
`reconcile`, and if there were edits, then one is left: the common root is never fallen back on. All
groups of a round have edits, and all of these have crumbs. So a round only fails by a location that
the children do not have, or by the adapter, and never for want of an edit or of a parent. -/
theorem toRoot_progress (adapter : Adapter σ N) (b : Batch N) :
    (∀ (zs : List (Zipper N)) s zs' s', height zs ≠ 0 →
      (round adapter (height zs) zs).runWith s = (.ok zs', s') →
        zs' ≠ [] ∧ height zs' + 1 = height zs) ∧
    (∀ s, ∃ n ≤ height b.zippers,
      Rounds adapter n b.zippers s ((reconcile adapter (height b.zippers) b.zippers).runWith s)) ∧
    (b.zippers ≠ [] → ∀ s, (∀ zs s',
      (reconcile adapter (height b.zippers) b.zippers).runWith s = (.ok zs, s') → ∃ z, zs = [z]) ∧
      ∀ root, (toRoot adapter ⟨root, b.zippers⟩).runWith s = (b.toRoot adapter).runWith s) ∧
    (∀ (zs : List (Zipper N)) depth, ∀ g ∈ levelGroups zs depth, Anchored g.2) ∧
    ∀ zs depth s e s', (round adapter depth zs).runWith s = (.error e, s') → Blamed adapter e ∧
      (e = .emptyGroup ∨ e = .rootHasNoParent →
        ∃ node c t t', (adapter.rebuild node c).runWith t = (.error e, t')) := by
  refine ⟨fun zs s zs' s' hdeep hround => ?_, fun s => rounds_reconcile adapter rfl s,
    fun hne s => ⟨fun zs s' hrun => ?_, fun root => ?_⟩,
    fun zs depth g hg => anchored_of_mem_groupByParent hg, fun zs depth s e s' hround => ?_⟩
  · obtain ⟨d, hd⟩ := Nat.exists_eq_succ_of_ne_zero hdeep
    rw [hd] at hround
    obtain ⟨hleft, hheight⟩ := round_progress hd hround
    exact ⟨hleft, by rw [hheight, hd]⟩
  · obtain ⟨n, -, hrounds⟩ := rounds_reconcile adapter (rfl : height b.zippers = height b.zippers) s
    exact hrounds.single hne hrun
  · exact toRoot_congr adapter hne root b.root s
  · have hblamed := blamed_of_round hround
    exact ⟨hblamed, hblamed.of_unreachable⟩

end Round

open Arborist.Graph Arborist.Traversal

/-- Edits that contradict each other. Two of them have a common parent, but not in one place. That
place is replaced by the parent itself and by another node, and one crumb is of a leaf. -/
def contradictoryBatch : Batch Node where
  root := .listed "root"
  zippers :=
    [⟨.listed "n", [below "root" 1, below "a" 7], .replace⟩,
      ⟨.listed "m", [below "root" 0, below "b" 3], .delete⟩,
      ⟨.listed "root", [below "a" 7], .replace⟩, ⟨.listed "k", [below "a" 7], .replace⟩]

/-- The first round leaves edits one level higher, and the second one fails: the leaf that has no
children is to blame. -/
theorem toRoot_progress_contradictory :
    (∃ zs s, (round (pairTable.adapter : Adapter Nat Node) 2 contradictoryBatch.zippers).runWith 0 =
        (.ok zs, s) ∧ zs ≠ [] ∧ height zs + 1 = 2 ∧
        ∃ t, (round (pairTable.adapter : Adapter Nat Node) 1 zs).runWith s =
          (.error (.missingRole (.named "x")), t) ∧
          Blamed (pairTable.adapter : Adapter Nat Node) (.missingRole (.named "x"))) ∧
    (∃ n ≤ 2, Rounds (pairTable.adapter : Adapter Nat Node) n contradictoryBatch.zippers 0
      ((reconcile pairTable.adapter 2 contradictoryBatch.zippers).runWith 0)) ∧
    (toRoot (pairTable.adapter : Adapter Nat Node)
        ⟨.listed "k", contradictoryBatch.zippers⟩).runWith 0 =
      (contradictoryBatch.toRoot (pairTable.adapter : Adapter Nat Node)).runWith 0 := by
  obtain ⟨hround, hends, hleft, -, hblamed⟩ :=
    toRoot_progress (pairTable.adapter : Adapter Nat Node) contradictoryBatch
  have hheight : height contradictoryBatch.zippers = 2 := rfl
  obtain ⟨zs, s, hfirst, t, hsecond⟩ : ∃ zs s,
      (round (pairTable.adapter : Adapter Nat Node) 2 contradictoryBatch.zippers).runWith 0 =
        (.ok zs, s) ∧ ∃ t, (round (pairTable.adapter : Adapter Nat Node) 1 zs).runWith s =
          (.error (.missingRole (.named "x")), t) := ⟨_, _, rfl, _, rfl⟩
  obtain ⟨hne, hheight'⟩ :=
    hround contradictoryBatch.zippers 0 zs s (by rw [hheight]; decide) (hheight ▸ hfirst)
  exact ⟨⟨zs, s, hfirst, hne, hheight', t, hsecond, (hblamed _ _ _ _ _ hsecond).1⟩,
    hends 0, (hleft (List.cons_ne_nil _ _) 0).2 _⟩

end Batch

end Arborist
