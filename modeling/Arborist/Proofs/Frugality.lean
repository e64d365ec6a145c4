import Arborist.Proofs.Landing

/-!
# Every ancestor is rebuilt once

Nodes are rebuilt in two ways while a batch is applied: a whole group at a time as long as several
edits are left, and one ancestor after the other on the way of the last edit to the root. For
unnested edits it comes to the same: exactly the nodes with edits below them are rebuilt, and each
of them once (`toRoot_conserved`).

To say so, `Adapter.noting` writes down the nodes that are rebuilt. Taking notes changes nothing
else (`toRoot_noting`). Every round notes the nodes of one level (`Unnested.handsDown`), and the
last edit goes to the root by rounds as well.
-/

namespace Arborist

variable {σ N : Type}

/-! ### Taking notes -/

/-- The adapter that **notes** the nodes it rebuilds, in order. -/
def Adapter.noting (adapter : Adapter σ N) : Adapter (σ × List N) N where
  children := adapter.children
  rebuild node c := fun s =>
    (((adapter.rebuild node c).runWith s.1).1,
      ((adapter.rebuild node c).runWith s.1).2, s.2 ++ [node])

/-- `x` does what `y` does, and takes **notes** besides. -/
def Attempt.Notes {α : Type} (x : Attempt (σ × List N) α) (y : Attempt σ α) : Prop :=
  ∀ s notes, ∃ more,
    x.runWith (s, notes) = ((y.runWith s).1, (y.runWith s).2, notes ++ more)

namespace Attempt.Notes

variable {α γ : Type}

theorem pure (a : α) : (Pure.pure a : Attempt (σ × List N) α).Notes (Pure.pure a) :=
  fun _ _ => ⟨[], by rw [List.append_nil]; rfl⟩

theorem throw (e : Error) :
    (MonadExcept.throw e : Attempt (σ × List N) α).Notes (MonadExcept.throw e) :=
  fun _ _ => ⟨[], by rw [List.append_nil]; rfl⟩

theorem ofExcept (r : Except Error α) :
    (Attempt.ofExcept r : Attempt (σ × List N) α).Notes (Attempt.ofExcept r) := by
  cases r with
  | ok a => exact .pure a
  | error e => exact .throw e

theorem bind {x : Attempt (σ × List N) α} {y : Attempt σ α} {f : α → Attempt (σ × List N) γ}
    {g : α → Attempt σ γ} (h : x.Notes y) (hf : ∀ a, (f a).Notes (g a)) :
    (x >>= f).Notes (y >>= g) := by
  intro s notes
  obtain ⟨more, hx⟩ := h s notes
  cases hy : y.runWith s with
  | mk out t =>
    rw [hy] at hx
    cases out with
    | error e =>
      rw [runWith_bind_error hx, runWith_bind_error hy]
      exact ⟨more, rfl⟩
    | ok a =>
      rw [runWith_bind_ok hx, runWith_bind_ok hy]
      obtain ⟨later, hlater⟩ := hf a t (notes ++ more)
      exact ⟨more ++ later, by rw [hlater, List.append_assoc]⟩

end Attempt.Notes

section Noting

variable (adapter : Adapter σ N)

theorem Adapter.noting_rebuild (node : N) (c : Children N) :
    (adapter.noting.rebuild node c).Notes (adapter.rebuild node c) :=
  fun _ _ => ⟨[node], rfl⟩

theorem Crumb.graft_noting (crumb : Crumb N) (edit : Edit) (node : N) :
    (crumb.graft adapter.noting edit node).Notes (crumb.graft adapter edit node) :=
  .bind (.ofExcept _) fun c => adapter.noting_rebuild crumb.node c

theorem Crumb.climb_noting (node : N) (crumbs : List (Crumb N)) :
    (Crumb.climb adapter.noting node crumbs).Notes (Crumb.climb adapter node crumbs) := by
  induction crumbs generalizing node with
  | nil => exact .pure node
  | cons crumb rest ih => exact .bind (crumb.graft_noting adapter .replace node) ih

theorem Zipper.toRoot_noting (z : Zipper N) :
    (z.toRoot adapter.noting).Notes (z.toRoot adapter) := by
  rw [Zipper.toRoot, Zipper.toRoot]
  split
  · split
    · exact .pure _
    · exact .pure _
    · exact .throw _
    · exact .throw _
  · refine .bind (Crumb.graft_noting adapter _ _ _) fun parent => ?_
    exact .bind (Crumb.climb_noting adapter parent _) fun root => .pure _

namespace Batch

theorem moveUpGroup_noting (group : List (Zipper N)) :
    (moveUpGroup adapter.noting group).Notes (moveUpGroup adapter group) := by
  rw [moveUpGroup, moveUpGroup]
  split
  · exact .throw _
  · split
    · exact .throw _
    · refine .bind (.ofExcept _) fun c => ?_
      exact .bind (adapter.noting_rebuild _ c) fun parent => .pure _

variable [Identified N]

theorem settle_noting (groups : List (Identity N × List (Zipper N))) (rest : List (Zipper N)) :
    (settle adapter.noting groups rest).Notes (settle adapter groups rest) := by
  induction groups generalizing rest with
  | nil => exact .pure _
  | cons g groups ih =>
    rw [settle_cons, settle_cons]
    split
    · exact ih rest
    · exact .bind (moveUpGroup_noting adapter g.2) fun _ => .bind (ih _) fun _ => .pure _

theorem round_noting (depth : Nat) (zs : List (Zipper N)) :
    (round adapter.noting depth zs).Notes (round adapter depth zs) :=
  .bind (settle_noting adapter _ _) fun _ => .pure _

theorem reconcile_noting (depth : Nat) (zs : List (Zipper N)) :
    (reconcile adapter.noting depth zs).Notes (reconcile adapter depth zs) := by
  induction depth generalizing zs with
  | zero =>
    rw [reconcile, reconcile]
    split
    · exact .pure _
    · exact .throw _
  | succ depth ih =>
    rw [reconcile, reconcile]
    split
    · exact .pure _
    · exact .bind (round_noting adapter _ zs) ih

/-- **Taking notes** changes nothing else about the way in which a batch is applied. -/
theorem toRoot_noting (b : Batch N) : (b.toRoot adapter.noting).Notes (b.toRoot adapter) := by
  refine .bind (reconcile_noting adapter _ _) fun zs => ?_
  split
  · exact Zipper.toRoot_noting adapter _
  · exact .pure _

end Batch

end Noting

/-! ### What one level rebuilds -/

/-- The states of an adapter hold **notes** of all that it rebuilds. -/
def Adapter.Notes (adapter : Adapter σ N) (notes : σ → List N) : Prop :=
  ∀ node c s, notes ((adapter.rebuild node c).runWith s).2 = notes s ++ [node]

theorem Adapter.notes_noting (adapter : Adapter σ N) : adapter.noting.Notes Prod.snd :=
  fun _ _ _ => rfl

namespace Batch

variable [Identified N] {adapter : Adapter σ N} {notes : σ → List N} {b : Batch N}

/-- The parent of the edits of a group. -/
def parentOf (group : List (Zipper N)) : Option N :=
  group.head?.bind Zipper.parent?

omit [Identified N] in
/-- Moving up a group notes its parent. -/
theorem notes_moveUpGroup (hnotes : adapter.Notes notes) {group : List (Zipper N)} {parent : N}
    (hparent : ∀ z ∈ group, z.parent? = some parent) {s s' : σ} {moved : Zipper N}
    (h : (moveUpGroup adapter group).runWith s = (.ok moved, s')) :
    notes s' = notes s ++ [parent] := by
  rw [moveUpGroup] at h
  split at h
  · cases h
  · next first rest horder =>
    have hfirst := hparent first (mem_inOrder.mp (horder ▸ List.mem_cons_self))
    split at h
    · cases h
    · next c above hcrumbs =>
      obtain rfl : c.node = parent := by simpa [Zipper.parent?, hcrumbs] using hfirst
      obtain ⟨children, t, hsplice, h⟩ := Attempt.exists_of_bind_ok h
      obtain ⟨made, u, hmade, h⟩ := Attempt.exists_of_bind_ok h
      cases h
      obtain rfl : t = s := by
        generalize spliceAll _ _ _ = spliced at hsplice
        cases spliced <;> cases hsplice
        rfl
      rw [← hnotes, hmade]

/-- Settling a level notes the parents of its groups, if none of them is dropped. -/
theorem notes_settle (hnotes : adapter.Notes notes)
    {groups : List (Identity N × List (Zipper N))} {rest : List (Zipper N)}
    (hnone : ∀ g ∈ groups, ∀ z ∈ rest, z.replacesAt (position g.2) = false)
    (hparent : ∀ g ∈ groups, ∃ parent, parentOf g.2 = some parent ∧
      ∀ z ∈ g.2, z.parent? = some parent)
    {s s' : σ} {out : List (Zipper N) × List (Zipper N)}
    (h : (settle adapter groups rest).runWith s = (.ok out, s')) :
    notes s' = notes s ++ groups.filterMap fun g => parentOf g.2 := by
  induction groups generalizing s out with
  | nil =>
    cases h
    exact (List.append_nil _).symm
  | cons g groups ih =>
    rw [List.forall_mem_cons] at hnone hparent
    obtain ⟨parent, hgroup, hall⟩ := hparent.1
    rw [settle_cons_of_none adapter groups hnone.1] at h
    obtain ⟨moved, t, hmoved, h⟩ := Attempt.exists_of_bind_ok h
    obtain ⟨others, u, hothers, h⟩ := Attempt.exists_of_bind_ok h
    cases h
    have hcons : ((g :: groups).filterMap fun g => parentOf g.2) =
        parent :: groups.filterMap fun g => parentOf g.2 := List.filterMap_cons_some hgroup
    rw [ih hnone.2 hparent.2 hothers, notes_moveUpGroup hnotes hall hmoved, hcons,
      List.append_assoc, List.singleton_append]

/-- All edits of a group have its parent. -/
theorem Below.parent?_eq {g : Identity N × List (Zipper N)} {base : N} {above : List (Crumb N)}
    (h : Below b g base above) {z : Zipper N} (hz : z ∈ g.2) : z.parent? = some base := by
  obtain ⟨l, hl⟩ := h.crumbs_eq z hz
  rw [Zipper.parent?, hl]
  rfl

theorem Below.parentOf_eq {g : Identity N × List (Zipper N)} {base : N} {above : List (Crumb N)}
    (h : Below b g base above) (hne : g.2 ≠ []) : parentOf g.2 = some base := by
  obtain ⟨first, rest, hgroup⟩ := List.exists_cons_of_ne_nil hne
  rw [parentOf, hgroup]
  exact h.parent?_eq (hgroup ▸ List.mem_cons_self)

/-! ### What all levels rebuild -/

/-- `calls` are the nodes with edits below them from a depth downwards, each of them **once**. -/
structure Called (adapter : Adapter σ N) (b : Batch N) (depth : Nat) (calls : List N) : Prop where
  once : (calls.map identity).Nodup
  mem_iff : ∀ n, n ∈ calls ↔ ∃ crumbs, depth ≤ crumbs.length ∧
    (b.withZippers []).Reaches adapter crumbs n ∧ b.EditedBelow crumbs

/-- There is nothing to rebuild below the deepest edit. -/
theorem called_height (adapter : Adapter σ N) (b : Batch N) :
    Called adapter b (height b.zippers) [] where
  once := .nil
  mem_iff n := by
    refine ⟨fun h => absurd h List.not_mem_nil, ?_⟩
    rintro ⟨crumbs, hlength, -, z, hz, c, hsuffix⟩
    have hdeep := Nat.le_trans hsuffix.length_le (depth_le_height hz)
    rw [List.length_cons] at hdeep
    omega

namespace Unnested

variable (hb : b.Unnested adapter)

include hb

/-- A node with edits below it remains. -/
theorem remains_of_below {crumbs : List (Crumb N)} (hbelow : b.EditedBelow crumbs) :
    b.Remains crumbs := by
  obtain ⟨z, hz, c, hsuffix⟩ := hbelow
  rintro y hy hedit ⟨front, rfl⟩
  -- the crumb right above the position of `y`
  rcases List.eq_nil_or_concat front with rfl | ⟨front, d, rfl⟩
  · exact hb.clear y hy hedit z hz c hsuffix
  · refine hb.clear y hy hedit z hz d (List.IsSuffix.trans ⟨c :: front, ?_⟩ hsuffix)
    simp

/-- The parent of a group is a node with edits below it. -/
theorem editedBelow_of_below {g : Identity N × List (Zipper N)} {base : N}
    {above : List (Crumb N)} (h : Below b g base above) :
    (b.withZippers []).Reaches adapter above base ∧ b.EditedBelow above := by
  obtain ⟨l, z, hz, hsuffix⟩ := h.trodden
  obtain ⟨n, hn⟩ := hb.reached z hz
  obtain ⟨child, hchild⟩ := hn.of_suffix hsuffix
  exact ⟨hchild.tail_of_tree.1, z, hz, _, hsuffix⟩

section Level

variable {depth : Nat} {zs : List (Zipper N)} (hs : Settled adapter b (depth + 1) zs)

include hs

/-- The groups of a level have the nodes of the level with edits below them as parents. -/
theorem mem_parents (n : N) :
    n ∈ (levelGroups zs (depth + 1)).filterMap (fun g => parentOf g.2) ↔
      ∃ crumbs, crumbs.length = depth ∧ (b.withZippers []).Reaches adapter crumbs n ∧
        b.EditedBelow crumbs := by
  have hnonempty := (levelGroups_spec zs (depth + 1)).nonempty
  rw [List.mem_filterMap]
  constructor
  · rintro ⟨g, hg, hparent⟩
    obtain ⟨base, above, hbelow, hlength⟩ := hs.below hb.coherent hg
    rw [hbelow.parentOf_eq (hnonempty g hg)] at hparent
    cases hparent
    exact ⟨above, hlength, hb.editedBelow_of_below hbelow⟩
  · rintro ⟨crumbs, hlength, hat, hedited⟩
    obtain ⟨z, hz, c, hsuffix⟩ := hedited
    have htrodden : b.Trodden crumbs := ⟨z, hz, (List.suffix_cons _ _).trans hsuffix⟩
    have hstanding := hb.standing_of_remains hat (hb.remains_of_below ⟨z, hz, c, hsuffix⟩)
    have hedits := (hb.editsBelow_iff hat).mpr ⟨z, hz, c, hsuffix⟩
    rw [← hstanding] at hedits
    obtain ⟨g, hg, hbelow⟩ :=
      (hs.exists_group hb.coherent hlength htrodden hat.of_tree).mp hedits
    rw [hstanding] at hbelow
    exact ⟨g, hg, hbelow.parentOf_eq (hnonempty g hg)⟩

theorem nodup_parents :
    (((levelGroups zs (depth + 1)).filterMap fun g => parentOf g.2).map identity).Nodup := by
  have hspec := levelGroups_spec zs (depth + 1)
  have hdistinct := List.pairwise_map.mp hspec.distinct
  rw [List.Nodup, List.pairwise_map, List.pairwise_filterMap]
  refine hdistinct.imp_of_mem fun {g h} hg hh hne m hm n hn hsame => hne ?_
  obtain ⟨base, above, hbelow, -⟩ := hs.below hb.coherent hg
  obtain ⟨other, beyond, hbelow', -⟩ := hs.below hb.coherent hh
  rw [hbelow.parentOf_eq (hspec.nonempty g hg)] at hm
  rw [hbelow'.parentOf_eq (hspec.nonempty h hh)] at hn
  cases hm
  cases hn
  rw [← hbelow.identity_eq, ← hbelow'.identity_eq, hsame]

/-- A round notes the parents of all groups. -/
theorem notes_round (hnotes : adapter.Notes notes) {s s' : σ} {zs' : List (Zipper N)}
    (h : (Batch.round adapter (depth + 1) zs).runWith s = (.ok zs', s')) :
    notes s' = notes s ++ (levelGroups zs (depth + 1)).filterMap fun g => parentOf g.2 := by
  rw [Batch.round, hs.partition] at h
  obtain ⟨out, t, hsettle, h⟩ := Attempt.exists_of_bind_ok h
  cases h
  refine notes_settle hnotes (fun g hg z hz => ?_) (fun g hg => ?_) hsettle
  · obtain ⟨base, above, hbelow, -⟩ := hs.below hb.coherent hg
    obtain ⟨l, y, hy, hsuffix⟩ := hbelow.trodden
    have habove : b.Trodden above := ⟨y, hy, (List.suffix_cons _ _).trans hsuffix⟩
    have hz := (List.mem_filter.mp hz).1
    rw [hbelow.position_eq, Bool.eq_false_iff]
    intro hreplaces
    obtain ⟨hedit, rfl⟩ := (hb.coherent.replacesAt_iff hz habove).mp hreplaces
    exact hb.clear z hz (by rw [hedit]; rfl) y hy _ hsuffix
  · obtain ⟨base, above, hbelow, -⟩ := hs.below hb.coherent hg
    have hne := (levelGroups_spec zs (depth + 1)).nonempty g hg
    exact ⟨base, hbelow.parentOf_eq hne, fun z hz => hbelow.parent?_eq hz⟩

end Level

/-- **Every round** notes the nodes of one level that have edits below them. -/
theorem handsDown (hnotes : adapter.Notes notes) :
    HandsDown adapter b fun depth s => Called adapter b depth (notes s) := by
  intro depth zs s zs' s' hs hround hcalled
  have hparents := hb.mem_parents hs
  rw [hb.notes_round hs hnotes hround]
  constructor
  · rw [List.map_append, List.nodup_append]
    refine ⟨hcalled.once, hb.nodup_parents hs, ?_⟩
    rintro _ hi _ hj rfl
    obtain ⟨m, hm, hi⟩ := List.mem_map.mp hi
    obtain ⟨n, hn, hj⟩ := List.mem_map.mp hj
    obtain ⟨xs, hxs, hm, -⟩ := (hcalled.mem_iff m).mp hm
    obtain ⟨ys, hys, hn, -⟩ := (hparents n).mp hn
    -- one node would be on two levels
    rw [hb.distinct xs ys m n hm hn (hi.trans hj.symm)] at hxs
    omega
  · intro n
    rw [List.mem_append, hcalled.mem_iff, hparents]
    constructor
    · rintro (⟨crumbs, hlength, h⟩ | ⟨crumbs, hlength, h⟩)
      · exact ⟨crumbs, by omega, h⟩
      · exact ⟨crumbs, by omega, h⟩
    · rintro ⟨crumbs, hlength, h⟩
      rcases Nat.lt_or_eq_of_le hlength with hlt | heq
      · exact .inl ⟨crumbs, hlt, h⟩
      · exact .inr ⟨crumbs, heq.symm, h⟩

end Unnested

/-! ### The whole batch -/

omit [Identified N] in
theorem reaches_noting {crumbs : List (Crumb N)} {node : N} :
    b.Reaches adapter.noting crumbs node ↔ b.Reaches adapter crumbs node := by
  constructor
  · intro h
    induction h with
    | root => exact .root
    | down _ found ih => exact .down ih found
    | through _ mem edit here found ih => exact .through ih mem edit here found
  · intro h
    induction h with
    | root => exact .root
    | down _ found ih => exact .down ih found
    | through _ mem edit here found ih => exact .through ih mem edit here found

omit [Identified N] in
theorem rebuilds_of_noting {node new : N} {c : Children N}
    (h : adapter.noting.Rebuilds node c new) : adapter.Rebuilds node c new := by
  obtain ⟨⟨s, s', hrun⟩, hchildren⟩ := h
  have hout : ((adapter.rebuild node c).runWith s.1).1 = .ok new := congrArg Prod.fst hrun
  exact ⟨⟨s.1, _, Prod.ext hout rfl⟩, hchildren⟩

/-- Edits are as unnested for an adapter that takes notes. -/
theorem Unnested.noting (hb : b.Unnested adapter) : b.Unnested adapter.noting where
  distinct xs ys m n hm hn := hb.distinct xs ys m n (reaches_noting.mp hm) (reaches_noting.mp hn)
  reached z hz := (hb.reached z hz).imp fun _ => reaches_noting.mpr
  once := hb.once
  clear := hb.clear
  offRoot := hb.offRoot
  lawful z hz c hc :=
    { roles_nodup := (hb.lawful z hz c hc).roles_nodup
      rebuild := by
        rintro children ⟨s, notes⟩ hroles
        obtain ⟨new, s', hrun, hchildren⟩ := (hb.lawful z hz c hc).rebuild children s hroles
        obtain ⟨more, hnotes⟩ := adapter.noting_rebuild c.node children s notes
        rw [hrun] at hnotes
        exact ⟨new, _, hnotes, hchildren⟩ }
  renews z hz c hc children new h := hb.renews z hz c hc children new (rebuilds_of_noting h)
  fits := hb.fits

/-- **Unnested edits** share all that is not on their ways, and rebuild every ancestor once: the
batch is applied without failure, the result conserves the tree, and the nodes that are rebuilt are
those with edits below them, each of them once. Without edits the result is the tree itself. -/
theorem toRoot_conserved (hb : b.Unnested adapter) (s : σ) :
    ∃ new s' calls, (b.toRoot adapter).runWith s = (.ok (some new), s') ∧
      (b.toRoot adapter.noting).runWith (s, []) = (.ok (some new), s', calls) ∧
      Conserved adapter b new ∧ Called adapter b 0 calls ∧
      (b.zippers = [] → new = b.root ∧ calls = []) := by
  have hnotes := hb.noting.handsDown adapter.notes_noting
  by_cases hnil : b.zippers = []
  · have hremains : b.Remains [] := fun z hz => absurd hz (hnil ▸ List.not_mem_nil)
    have hnone : ¬ b.EditedBelow [] := fun ⟨z, hz, _⟩ => absurd hz (hnil ▸ List.not_mem_nil)
    have hcalled := called_height adapter b
    rw [show height b.zippers = 0 by rw [hnil]; rfl] at hcalled
    have hedited : edited adapter b.zippers (height b.zippers) [] b.root = .keep b.root :=
      hb.edited_of_untouched .root hremains hnone _
    exact ⟨b.root, s, [], toRoot_of_nil adapter hnil s, toRoot_of_nil _ hnil _,
      hb.conserved (hedited ▸ .keep b.root), hcalled, fun _ => ⟨rfl, rfl⟩⟩
  · obtain ⟨result, ⟨t, calls⟩, hnoting, -, hcalled⟩ :=
      hb.noting.coherent.toRoot_handsDown hnotes hnil (s := (s, [])) (called_height _ b)
    obtain ⟨plain, s', hplain, hrel⟩ := hb.coherent.toRoot_of_ne_nil hnil s
    obtain ⟨more, hsame⟩ := toRoot_noting adapter b s []
    rw [hplain] at hsame
    obtain ⟨hresult, hstate⟩ := Prod.mk.inj (hnoting.symm.trans hsame)
    cases hresult
    obtain ⟨rfl, -⟩ := Prod.mk.inj hstate
    -- the root is not deleted
    rw [simultaneous, carried_eq_nil fun z hz hway _ => hb.offRoot z hz
      (List.map_eq_nil_iff.mp hway)] at hrel
    cases hrel with
    | some hshows =>
      refine ⟨_, t, calls, hplain, hnoting, hb.conserved hshows, ⟨hcalled.once, fun n => ?_⟩,
        fun h => absurd h hnil⟩
      rw [hcalled.mem_iff]
      simp only [reaches_noting]

/-! ### Edits of every kind -/

open Arborist.Graph

/-- Edits of every kind on two levels of a tree. -/
def mixedBatch : Batch Node where
  root := .listed "root"
  zippers := [
    ⟨.listed "n1", [below "a" 0, below "root" 0], .insertBefore⟩,
    ⟨.listed "a2", [below "a" 1, below "root" 0], .delete⟩,
    ⟨.listed "n2", [below "root" 0], .insertAfter⟩,
    ⟨.listed "w", [below "root" 1], .replace⟩]

theorem sampleTable_positions {crumbs : List (Crumb Node)} {node : Node}
    (h : Reaches (sampleTable.adapter : Adapter Nat Node) (mixedBatch.withZippers []) crumbs
      node) :
    (crumbs, node) ∈ [([], Node.listed "root"), ([below "root" 0], .listed "a"),
      ([below "root" 1], .listed "b"), ([below "a" 0, below "root" 0], .listed "a1"),
      ([below "a" 1, below "root" 0], .listed "a2")] := by
  induction h with
  | root => simp [mixedBatch, withZippers]
  | @down crumbs node child l _ found ih =>
    simp only [List.mem_cons, List.not_mem_nil, or_false, Prod.mk.injEq] at ih
    rcases ih with ⟨rfl, rfl⟩ | ⟨rfl, rfl⟩ | ⟨rfl, rfl⟩ | ⟨rfl, rfl⟩ | ⟨rfl, rfl⟩
    · rcases Children.eq_of_at?_pair found with ⟨rfl, rfl⟩ | ⟨rfl, rfl⟩ <;> simp [below]
    · rcases Children.eq_of_at?_pair found with ⟨rfl, rfl⟩ | ⟨rfl, rfl⟩ <;> simp [below]
    · cases found
    · cases found
    · cases found
  | through _ mem => simp [withZippers] at mem

/-- The nodes that the edits are made below. -/
theorem mixedBatch_crumbs {z : Zipper Node} (hz : z ∈ mixedBatch.zippers) {c : Crumb Node}
    (hc : c ∈ z.crumbs) : ∃ name list, c.node = .listed name ∧
      sampleTable.children c.node = ⟨[(.named "x", list)]⟩ ∧ list.length ≤ 2 := by
  simp only [mixedBatch, List.mem_cons, List.not_mem_nil, or_false] at hz
  rcases hz with rfl | rfl | rfl | rfl <;>
    simp only [List.mem_cons, List.not_mem_nil, or_false] at hc <;>
    rcases hc with rfl | rfl <;> exact ⟨_, _, rfl, rfl, by decide⟩

/-- Rebuilding a node of a table gives a new node. -/
theorem identity_ne_of_rebuilds {t : Table} {name : String} {c : Children Node} {new : Node}
    (h : (t.adapter : Adapter Nat Node).Rebuilds (.listed name) c new) :
    identity new ≠ identity (Node.listed name) := by
  obtain ⟨⟨s, s', hrun⟩, -⟩ := h
  cases new with
  | listed other => exact absurd hrun (t.rebuild_ne_listed _ _ _ _ _)
  | built serial other children => exact nofun

theorem mixedBatch_unnested : mixedBatch.Unnested (sampleTable.adapter : Adapter Nat Node) where
  distinct xs ys m n hm hn hid := by
    have hm := sampleTable_positions hm
    have hn := sampleTable_positions hn
    simp only [List.mem_cons, List.not_mem_nil, or_false, Prod.mk.injEq] at hm hn
    rcases hm with ⟨rfl, rfl⟩ | ⟨rfl, rfl⟩ | ⟨rfl, rfl⟩ | ⟨rfl, rfl⟩ | ⟨rfl, rfl⟩ <;>
      rcases hn with ⟨rfl, rfl⟩ | ⟨rfl, rfl⟩ | ⟨rfl, rfl⟩ | ⟨rfl, rfl⟩ | ⟨rfl, rfl⟩ <;> simp_all
  reached := by
    simp only [mixedBatch, List.forall_mem_cons]
    exact ⟨⟨_, .down (.down .root rfl) rfl⟩, ⟨_, .down (.down .root rfl) rfl⟩,
      ⟨_, .down .root rfl⟩, ⟨_, .down .root rfl⟩, by simp⟩
  once := by simp [mixedBatch, below, Edit.inserts]
  clear := by simp [mixedBatch, below, Edit.inserts, List.suffix_cons_iff]
  offRoot := by simp [mixedBatch]
  lawful z hz c hc := by
    obtain ⟨name, list, -, hlist, -⟩ := mixedBatch_crumbs hz hc
    exact Table.lawfulAt _ _ (by simp [hlist, Children.roles]) List.not_mem_nil
  renews z hz c hc children new h := by
    obtain ⟨name, -, hname, -⟩ := mixedBatch_crumbs hz hc
    rw [hname] at h ⊢
    exact identity_ne_of_rebuilds h
  fits z hz c hc r list hr := by
    obtain ⟨-, known, -, hlist, hlength⟩ := mixedBatch_crumbs hz hc
    rw [Children.eq_of_get?_single hlist hr]
    have hcount : mixedBatch.zippers.length = 4 := rfl
    omega

theorem toRoot_conserved_mixed :
    mixedBatch.Unnested (sampleTable.adapter : Adapter Nat Node) ∧
      ∃ new s', (mixedBatch.toRoot (sampleTable.adapter : Adapter Nat Node)).runWith 0 =
          (.ok (some new), s') ∧
        (mixedBatch.toRoot (sampleTable.adapter : Adapter Nat Node).noting).runWith (0, []) =
          (.ok (some new), s', [.listed "a", .listed "root"]) ∧
        Conserved (sampleTable.adapter : Adapter Nat Node) mixedBatch new ∧
        Called (sampleTable.adapter : Adapter Nat Node) mixedBatch 0
          [.listed "a", .listed "root"] := by
  obtain ⟨new, s', calls, hrun, hnoting, hconserved, hcalled, -⟩ :=
    toRoot_conserved mixedBatch_unnested 0
  have hcalls : ((mixedBatch.toRoot (sampleTable.adapter : Adapter Nat Node).noting).runWith
      (0, [])).2.2 = [.listed "a", .listed "root"] := rfl
  rw [hnoting] at hcalls
  obtain rfl : calls = _ := hcalls
  exact ⟨mixedBatch_unnested, new, s', hrun, hnoting, hconserved, hcalled⟩

/-- The first child of `a` comes to lie behind the node put in front of it. -/
example : landing mixedBatch.zippers (Crumb.way [below "a" 0, below "root" 0]) =
    [⟨.named "x", 0⟩, ⟨.named "x", 1⟩] := by
  decide

end Batch

end Arborist
