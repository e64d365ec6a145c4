import Arborist.Proofs.IndexRange
import Mathlib

/-!
# Bystanders

A child is a **bystander** of a batch of edits of one parent if no edit of the batch replaces or
deletes it. This file says when the bystanders outlive the batch, in their order
(`Batch.toRoot_spares`), whatever the edits are and however many of them there are at one position.

* Every deletion of a position beyond the first takes away the nearest node in front of it
  (`Batch.weave_pile`). The nodes that are put in front of a child shield those before it, so
  bystanders are safe if no position has more deletions than its own child and these nodes
  (`Batch.sublist_pile`, `Batch.sublist_of_weave`).
* Behind the end of a list nothing can be done but to insert (`Batch.sublist_of_weave_beyond`), as
  long as no replacement or deletion has an index that comes round.
-/

namespace Arborist

variable {σ N : Type}

/-- An adapter **gives back** the children that a node is rebuilt with, as those of the new node. -/
def Adapter.GivesBackAt (adapter : Adapter σ N) (node : N) : Prop :=
  ∀ (c : Children N) (s : σ) (new : N) (s' : σ), c.roles = (adapter.children node).roles →
    (adapter.rebuild node c).runWith s = (.ok new, s') → adapter.children new = c

/-- Lawful adapters give back children. -/
theorem Adapter.LawfulAt.givesBackAt {adapter : Adapter σ N} {node : N}
    (h : adapter.LawfulAt node) : adapter.GivesBackAt node := by
  intro c s new s' hroles hrun
  obtain ⟨new', t, hnew, hchildren⟩ := h.rebuild c s hroles
  obtain rfl : new' = new := by cases hnew.symm.trans hrun; rfl
  exact hchildren

namespace Batch

/-! ### Piles -/

/-- The child at an index, unless the edits replace or delete it. -/
def bystander (ps : List (Patch N)) (i : Nat) (child : N) : List N :=
  if (patchedAt ps i .replace).isEmpty && (patchedAt ps i .delete).isEmpty then [child] else []

/-- A pile holds what was in front and a bystander, if there are no more deletions than nodes to
take away at the index itself. -/
theorem sublist_pile {ps : List (Patch N)} {i : Nat} {kept front : List N}
    (hkept : kept.Sublist front) (hmany : (patchedAt ps i .delete).length ≤
      (patchedAt ps i .insertBefore).length + 1) (x : N) :
    (kept ++ bystander ps i x).Sublist (pile ps i front x) := by
  rw [pile, bystander]
  split
  · rename_i hnone
    rw [Bool.and_eq_true, List.isEmpty_iff, List.isEmpty_iff] at hnone
    rw [hnone.1, hnone.2, List.length_nil, List.rdrop_zero, List.getLastD_nil]
    exact ((hkept.trans (List.sublist_append_left _ _)).append_right [x]).trans
      (List.sublist_append_left _ _)
  · -- what is taken away was put there by the edits of this index
    have hfront : front <+: (front ++ patchedAt ps i .insertBefore ++
        [(patchedAt ps i .replace).getLastD x]).rdrop (patchedAt ps i .delete).length := by
      rw [List.rdrop, List.append_assoc, List.prefix_take_iff]
      refine ⟨List.prefix_append _ _, ?_⟩
      simp only [List.length_append, List.length_singleton]
      omega
    rw [List.append_nil]
    exact hkept.trans (hfront.sublist.trans (List.sublist_append_left _ _))

/-! ### Behind the end of a list -/

theorem growth_of_inserts {edit : Edit} (h : edit.inserts = true) : edit.growth = 1 := by
  cases edit with
  | replace | delete => cases h
  | insertBefore | insertAfter => rfl

theorem offset_of_not_inserts {edit : Edit} (h : edit.inserts = false) : edit.offset = 0 := by
  cases edit with
  | replace | delete => rfl
  | insertBefore | insertAfter => cases h

/-- Inserting keeps what is there. -/
theorem sublist_applyAt {edit : Edit} (h : edit.inserts = true) (list : List N) (i : Nat)
    (node : N) : list.Sublist (edit.applyAt list i node) := by
  cases edit with
  | replace | delete => cases h
  | insertBefore | insertAfter => exact List.sublist_insertIdx list i node

/-- Edits whose indices are not inside the list any more can only insert. -/
theorem sublist_of_weave_beyond {list out : List N} {shift : Int} {ps : List (Patch N)}
    (hi : ∀ p ∈ ps, (list.length : Int) ≤ p.index + shift)
    (hroom : ∀ p ∈ ps, p.edit.inserts = false → p.index + shift + ps.length < (2 ^ 64 : Int))
    (h : weave list shift ps = some out) : list.Sublist out := by
  induction ps generalizing list shift with
  | nil =>
    obtain rfl : list = out := Option.some.inj h
    exact .refl _
  | cons p ps ih =>
    rw [weave] at h
    split at h
    · rename_i hinside
      have hhere := hi p List.mem_cons_self
      cases hinserts : p.edit.inserts with
      | true =>
        have hlonger := length_applyAt (show (p.edit.target p.index shift).toNat <
          p.edit.places list.length by omega) p.node
        rw [growth_of_inserts hinserts] at hlonger h
        refine (sublist_applyAt hinserts list _ p.node).trans (ih (fun q hq => ?_)
          (fun q hq hkind => ?_) h)
        · have := hi q (List.mem_cons_of_mem _ hq)
          omega
        · have := hroom q (List.mem_cons_of_mem _ hq) hkind
          rw [List.length_cons] at this
          omega
      | false =>
        -- a place that is behind the end, and not so far that it comes round
        exfalso
        have hhigh := hroom p List.mem_cons_self hinserts
        rw [Edit.places, hinserts, Edit.target_eq, offset_of_not_inserts hinserts, Nat.cast_zero,
          Int.add_zero] at hinside
        simp only [Bool.false_eq_true, if_false] at hinside
        rw [List.length_cons] at hhigh
        rcases lt_or_ge (p.index + shift) (2 ^ 63 : Int) with hsmall | hlarge
        · rw [signedWord_of_lt (by omega) hsmall] at hinside
          omega
        · rw [signedWord_of_ge hlarge (by omega)] at hinside
          omega
    · cases h

/-! ### A whole list -/

theorem bystander_filter_index_lt (ps : List (Patch N)) {i j : Nat} (hij : i < j) (x : N) :
    bystander (ps.filter (i < ·.index)) j x = bystander ps j x := by
  simp only [bystander, patchedAt_filter_lt ps hij]

/-- A list whose head positions are done: what is kept of them and the bystanders of the rest are
part of what the edits that are left give. -/
theorem sublist_of_weave {ps : List (Patch N)} (i : Nat) (front back : List N)
    {kept out : List N} (hkept : kept.Sublist front) (hsorted : ps.Pairwise Patch.Before)
    (hi : ∀ p ∈ ps, i ≤ p.index)
    (hmany : ∀ j, i ≤ j → (patchedAt ps j .delete).length ≤
      (patchedAt ps j .insertBefore).length + 1)
    (hroom : ∀ p ∈ ps, p.edit.inserts = false →
      p.index + (front.length - i) + ps.length < (2 ^ 64 : Int))
    (hfits : (front ++ back).length + ps.length < 2 ^ 63)
    (h : weave (front ++ back) (front.length - i) ps = some out) :
    (kept ++ (back.mapIdx fun j x => bystander ps (i + j) x).flatten).Sublist out := by
  induction back generalizing i front kept ps with
  | nil =>
    rw [List.append_nil] at h
    rw [List.mapIdx_nil, List.flatten_nil, List.append_nil]
    refine hkept.trans (sublist_of_weave_beyond (fun p hp => ?_) hroom h)
    have := hi p hp
    omega
  | cons x back ih =>
    -- the block of the first position
    have hhere := hmany i (Nat.le_refl i)
    obtain ⟨hfirst, hlength⟩ := weave_first hsorted hi front x back
      (Nat.le_trans hhere (by omega)) hfits
    rw [hfirst] at h
    -- the other positions
    have hlater := ih (i + 1) (pile ps i front x) (sublist_pile hkept hhere x)
      (hsorted.filter (i < ·.index)) (fun p hp => by simpa using (List.mem_filter.mp hp).2)
      (fun j hj => by
        rw [patchedAt_filter_lt ps hj, patchedAt_filter_lt ps hj]
        exact hmany j (by omega))
      (fun p hp hkind => by
        have := hroom p (List.mem_filter.mp hp).1 hkind
        push_cast
        omega)
      (by simp only [List.length_append, List.length_cons] at hfits ⊢; omega)
      h
    have hsame : (back.mapIdx fun j y => bystander (ps.filter (i < ·.index)) (i + 1 + j) y) =
        back.mapIdx fun j y => bystander ps (i + (j + 1)) y := by
      refine List.ext_getElem (by simp) fun j _ _ => ?_
      rw [List.getElem_mapIdx, List.getElem_mapIdx, bystander_filter_index_lt ps (by omega),
        Nat.add_assoc, Nat.add_comm 1 j]
    rw [hsame] at hlater
    rw [List.mapIdx_cons, List.flatten_cons, ← List.append_assoc]
    exact hlater

/-! ### A batch of edits of one parent -/

/-- The children of a parent that no edit replaces or deletes. -/
def bystanders (zs : List (Zipper N)) (c : Children N) : Children N :=
  c.spread fun l child =>
    if (carriedAt zs l .replace).isEmpty && (carriedAt zs l .delete).isEmpty then [child] else []

/-- The list of a role without the children that are replaced or deleted. -/
theorem get?_bystanders (zs : List (Zipper N)) (c : Children N) (r : Role) :
    (bystanders zs c).get? r = (c.get? r).map fun list =>
      (list.mapIdx fun i child => bystander (patches r (inOrder zs)) i child).flatten := by
  rw [bystanders, Children.get?_spread]
  simp only [bystander, patchedAt_patches, carriedAt_inOrder]

/-- **Bystanders of a splice** outlive it in their order. -/
theorem spliceAll_spares {c c' : Children N} {zs : List (Zipper N)}
    (hmany : ∀ l, (carriedAt zs l .delete).length ≤ (carriedAt zs l .insertBefore).length + 1)
    (hindex : ∀ z ∈ zs, z.edit.inserts = false → ∀ l, z.location? = some l →
      l.index + zs.length < 2 ^ 64)
    (hlists : ∀ r list, c.get? r = some list → list.length + zs.length < 2 ^ 63)
    (h : spliceAll c (fun _ => 0) (inOrder zs) = .ok c') {r : Role} {kept : List N}
    (hkept : (bystanders zs c).get? r = some kept) :
    ∃ out, c'.get? r = some out ∧ kept.Sublist out := by
  rw [get?_bystanders] at hkept
  obtain ⟨list, hlist, rfl⟩ := Option.map_eq_some_iff.mp hkept
  obtain ⟨out, hwoven, hout⟩ := (weave_of_spliceAll h).2 r list hlist
  refine ⟨out, hout, ?_⟩
  have hcount : (patches r (inOrder zs)).length ≤ zs.length :=
    length_inOrder zs ▸ length_patches_le r (inOrder zs)
  have hlength := hlists r list hlist
  have hspared := sublist_of_weave 0 [] list (.refl []) (patches_inOrder_pairwise zs r)
    (fun _ _ => Nat.zero_le _) (fun i _ => ?_) (fun p hp hkind => ?_)
    (by simp only [List.nil_append]; omega) hwoven
  · simpa only [List.nil_append, Nat.zero_add] using hspared
  · simpa only [patchedAt_patches, carriedAt_inOrder] using hmany ⟨r, i⟩
  · obtain ⟨z, hz, l, hl, -, rfl⟩ := mem_patches.mp hp
    have := hindex z (mem_inOrder.mp hz) hkind l hl
    simp only [List.length_nil]
    omega

variable [Identified N]

/-- Edits of one parent form one group. -/
theorem groupByParent_of_siblings {parent : N} {zs : List (Zipper N)} (hne : zs ≠ [])
    (hparent : ∀ z ∈ zs, z.parent? = some parent) :
    groupByParent zs = [(identity parent, zs)] := by
  induction zs using List.reverseRecOn with
  | nil => exact absurd rfl hne
  | append_singleton zs z ih =>
    rw [groupByParent, List.foldl_append, List.foldl_cons, List.foldl_nil, ← groupByParent,
      hparent z (List.mem_append_right _ List.mem_cons_self)]
    by_cases hzs : zs = []
    · rw [hzs]
      rfl
    · rw [ih hzs fun y hy => hparent y (List.mem_append_left _ hy)]
      exact if_pos rfl

/-- Edits right below the root are spliced into its children, and it is rebuilt once. -/
theorem toRoot_of_siblings (adapter : Adapter σ N) {b : Batch N} (hne : b.zippers ≠ [])
    (hsiblings : ∀ z ∈ b.zippers, ∃ l, z.crumbs = [⟨b.root, l⟩]) :
    b.toRoot adapter =
      Attempt.ofExcept (spliceAll (adapter.children b.root) (fun _ => 0) (inOrder b.zippers)) >>=
        fun c => adapter.rebuild b.root c >>= fun new => pure (some new) := by
  have hparent : ∀ z ∈ b.zippers, z.parent? = some b.root := fun z hz => by
    obtain ⟨l, hl⟩ := hsiblings z hz
    rw [Zipper.parent?, hl]
    rfl
  have hdepth : ∀ z ∈ b.zippers, z.depth = 1 := fun z hz => by
    obtain ⟨l, hl⟩ := hsiblings z hz
    rw [Zipper.depth, hl]
    rfl
  have hheight : height b.zippers = 1 := by
    obtain ⟨z, hz, hheight⟩ := exists_depth_eq_height hne
    rw [← hheight, hdepth z hz]
  obtain ⟨first, hfirst, hgroup⟩ := moveUpGroup_eq adapter hne hparent
  have hroot : first.crumbs.tail = [] := by
    obtain ⟨l, hl⟩ := hsiblings first hfirst
    rw [hl]
    rfl
  have hmoved : b.toRoot adapter = moveUpGroup adapter b.zippers >>= (·.toRoot adapter) := by
    rw [toRoot, hheight, reconcile]
    split
    · rename_i hone
      obtain ⟨z, hz⟩ := List.exists_mem_of_ne_nil _ hne
      have hcrumbs : z.crumbs ≠ [] := by
        obtain ⟨l, hl⟩ := hsiblings z hz
        simp [hl]
      rw [eq_singleton hz hone, pure_bind, moveUpGroup_singleton]
      exact toRoot_moveUp adapter hcrumbs
    · have hpart : b.zippers.partition (·.depth == 1) = (b.zippers, []) := by
        rw [List.partition_eq_filter_filter, List.filter_eq_self.mpr, List.filter_eq_nil_iff.mpr]
        · exact fun z hz => by simp [hdepth z hz]
        · exact fun z hz => by simp [hdepth z hz]
      simp only [Batch.round, hpart, groupByParent_of_siblings hne hparent, settle_singleton,
        reconcile, bind_assoc, pure_bind, List.nil_append, List.length_singleton, Nat.le_refl,
        if_true]
  rw [hmoved, hgroup, hroot]
  simp only [bind_assoc, pure_bind]
  rfl

/-- **A batch spares its bystanders.** If a batch of edits right below the root gives a new root,
then under every role the children that no edit replaces or deletes are among the children of the
new root, in their order. It takes that no location has more deletions than one and the nodes that
are put in front of it, since every further deletion takes the nearest node in front, and that no
replacement and no deletion has an index that comes round. The last bound is that of signed machine
words. -/
theorem toRoot_spares {adapter : Adapter σ N} {b : Batch N}
    (hsiblings : ∀ z ∈ b.zippers, ∃ l, z.crumbs = [⟨b.root, l⟩])
    (hadapter : adapter.GivesBackAt b.root)
    (hmany : ∀ l, (carriedAt b.zippers l .delete).length ≤
      (carriedAt b.zippers l .insertBefore).length + 1)
    (hindex : ∀ z ∈ b.zippers, z.edit.inserts = false → ∀ l, z.location? = some l →
      l.index + b.zippers.length < 2 ^ 64)
    (hlists : ∀ r list, (adapter.children b.root).get? r = some list →
      list.length + b.zippers.length < 2 ^ 63)
    {s s' : σ} {new : N} (hrun : (b.toRoot adapter).runWith s = (.ok (some new), s'))
    {r : Role} {kept : List N}
    (hkept : (bystanders b.zippers (adapter.children b.root)).get? r = some kept) :
    ∃ out, (adapter.children new).get? r = some out ∧ kept.Sublist out := by
  by_cases hne : b.zippers = []
  · rw [toRoot_of_nil adapter hne] at hrun
    obtain rfl : b.root = new := by cases hrun; rfl
    rw [hne] at hkept hmany hindex hlists
    exact spliceAll_spares hmany hindex hlists rfl hkept
  · rw [toRoot_of_siblings adapter hne hsiblings] at hrun
    obtain ⟨c, t, hsplice, hrebuild⟩ := Attempt.exists_of_bind_ok hrun
    obtain ⟨built, u, hbuilt, hlast⟩ := Attempt.exists_of_bind_ok hrebuild
    have hc := Attempt.eq_of_ofExcept_ok hsplice
    obtain rfl : built = new := by cases hlast; rfl
    rw [hadapter c t built u (roles_spliceAll hc) hbuilt]
    exact spliceAll_spares hmany hindex hlists hc hkept

end Batch

/-! ### Bystanders on a table -/

namespace Graph

open Arborist.Batch

/-- A node in front of the second child, which is deleted twice. -/
def shieldedBatch : Batch Node where
  root := .listed "root"
  zippers := [siblingEdit "b" "x" 1 .delete, siblingEdit "n" "x" 1 .insertBefore,
    siblingEdit "b" "x" 1 .delete]

/-- The second child is deleted twice. -/
def twiceBatch : Batch Node where
  root := .listed "root"
  zippers := [siblingEdit "b" "x" 1 .delete, siblingEdit "b" "x" 1 .delete]

theorem toRoot_spares_shielded :
    ∃ new s' out, (shieldedBatch.toRoot (siblingTable.adapter : Adapter Nat Node)).runWith 0 =
        (.ok (some new), s') ∧
      (siblingTable.children new).get? (.named "x") = some out ∧
      [Node.listed "a"].Sublist out := by
  have hlawful : (siblingTable.adapter : Adapter Nat Node).LawfulAt (.listed "root") :=
    siblingTable.lawfulAt (.listed "root") (by decide) List.not_mem_nil
  have hmany : ∀ l, (carriedAt shieldedBatch.zippers l .delete).length ≤
      (carriedAt shieldedBatch.zippers l .insertBefore).length + 1 := by
    intro l
    by_cases hl : (⟨.named "x", 1⟩ : Location) = l
    · subst hl
      decide
    · simp [carriedAt, shieldedBatch, siblingEdit, Zipper.location?, hl]
  have hkept : (bystanders shieldedBatch.zippers (siblingTable.children shieldedBatch.root)).get?
      (.named "x") = some [.listed "a"] := rfl
  obtain ⟨new, s', hrun⟩ : ∃ new s', (shieldedBatch.toRoot
      (siblingTable.adapter : Adapter Nat Node)).runWith 0 = (.ok (some new), s') := ⟨_, _, rfl⟩
  obtain ⟨out, hout, hsub⟩ := toRoot_spares (by simp [shieldedBatch, siblingEdit])
    hlawful.givesBackAt hmany (by simp [shieldedBatch, siblingEdit, Zipper.location?])
    (fun r list hr => Nat.lt_of_le_of_lt (Nat.add_le_add_right (length_siblings_le hr) _)
      (by decide)) hrun hkept
  exact ⟨new, s', out, hrun, hout, hsub⟩

/-- **A bystander that does not survive**: the second child is deleted twice, and the second
deletion takes away the first child, which no edit names. -/
theorem toRoot_twice :
    (∀ z ∈ twiceBatch.zippers, ∃ l, z.crumbs = [⟨twiceBatch.root, l⟩]) ∧
      (bystanders twiceBatch.zippers (siblingTable.children twiceBatch.root)).get? (.named "x") =
        some [.listed "a"] ∧
      ∃ new s', (twiceBatch.toRoot (siblingTable.adapter : Adapter Nat Node)).runWith 0 =
          (.ok (some new), s') ∧
        (siblingTable.children new).get? (.named "x") = some [] := by
  refine ⟨?_, rfl, _, _, rfl, rfl⟩
  simp [twiceBatch, siblingEdit]

end Graph

end Arborist
