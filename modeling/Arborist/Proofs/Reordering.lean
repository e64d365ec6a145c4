import Arborist.Proofs.AllAtOnce

/-!
# The order in which edits are collected

Edits of a batch are made against one tree, so it should not matter in which order they were
collected, as long as edits of one kind at one position keep theirs (`Reordered`). What all edits
give at once does not depend on more than that (`simultaneous_reordered`), and neither does whether
they are coherent (`Coherent.reordered`). So coherent batches have results that show one and the
same sketch (`toRoot_reordered`). Where the root is deleted among other edits, or something is put
beside it, a batch fails in any order (`toRoot_error_of_root`).

The order does matter where edits run both through a replaced node and through its replacement
(`toRoot_bothSides`): a replacement that was edited is taken out of the batch, and what comes after
it finds no replacement any more.
-/

namespace Arborist

variable {σ N : Type} [Identified N]

namespace Batch

/-- The same edits **in another order**, in which edits of one kind at one position keep theirs. -/
structure Reordered (zs zs' : List (Zipper N)) : Prop where
  perm : zs'.Perm zs
  order : ∀ (way : Way N) (edit : Edit),
    zs'.filter (fun z => z.way = way ∧ z.edit = edit) =
      zs.filter fun z => z.way = way ∧ z.edit = edit

variable {adapter : Adapter σ N} {b : Batch N} {zs zs' : List (Zipper N)}

/-! ### All edits at once -/

theorem carried_reordered (h : Reordered zs zs') (way : Way N) (edit : Edit) :
    carried zs' way edit = carried zs way edit := by
  rw [carried, carried, h.order]

theorem editsBelow_reordered (h : Reordered zs zs') (node : N) (way : Way N) :
    editsBelow zs' node way = editsBelow zs node way :=
  h.perm.any_eq

theorem height_reordered (h : Reordered zs zs') : height zs' = height zs :=
  h.perm.foldr_eq' (fun x _ y _ n => by omega) 0

theorem standing_reordered (h : Reordered zs zs') (way : Way N) (node : N) :
    standing zs' way node = standing zs way node := by
  rw [standing, standing, carried_reordered h]

theorem surrounded_reordered (h : Reordered zs zs') (way : Way N) (child : Sketch N) :
    surrounded zs' way child = surrounded zs way child := by
  simp only [surrounded, carried_reordered h]

theorem edited_reordered (adapter : Adapter σ N) (h : Reordered zs zs') (levels : Nat) (way : Way N)
    (node : N) : edited adapter zs' levels way node = edited adapter zs levels way node := by
  induction levels generalizing way node with
  | zero => rw [edited, edited, standing_reordered h]
  | succ levels ih =>
    rw [edited, edited, standing_reordered h, editsBelow_reordered h]
    simp only [surrounded_reordered h, ih]

/-- All edits at once give the same, whatever their order. -/
theorem simultaneous_reordered (adapter : Adapter σ N) (h : Reordered b.zippers zs') :
    (b.withZippers zs').simultaneous adapter = b.simultaneous adapter := by
  simp only [simultaneous, withZippers, carried_reordered h, height_reordered h,
    edited_reordered adapter h]

/-! ### Coherence -/

theorem Reaches.reordered {crumbs : List (Crumb N)} {node : N} (hr : b.Reaches adapter crumbs node)
    (h : Reordered b.zippers zs') : (b.withZippers zs').Reaches adapter crumbs node := by
  induction hr with
  | root => exact .root
  | down above found ih => exact .down ih found
  | through above mem edit here found ih =>
    exact .through ih (h.perm.mem_iff.mpr mem) edit here found

/-- **Coherence does not depend on the order.** -/
theorem Coherent.reordered (hb : b.Coherent adapter) (h : Reordered b.zippers zs') :
    (b.withZippers zs').Coherent adapter := by
  have hmem : ∀ {z : Zipper N}, z ∈ zs' → z ∈ b.zippers := h.perm.mem_iff.mp
  refine { reached := ?_, once := ?_, fresh := ?_, rootAlone := ?_, rootDeleted := ?_, sided := ?_,
           lawful := ?_, fits := ?_, apart := ?_ }
  · intro z hz
    obtain ⟨node, hnode⟩ := hb.reached z (hmem hz)
    exact ⟨node, hnode.reordered h⟩
  · refine (h.perm.pairwise_iff fun hne hz hy => ?_).mpr hb.once
    exact (hne hy hz).symm
  · exact fun z hz hedit y hy => hb.fresh z (hmem hz) hedit y (hmem hy)
  · exact fun z hz => hb.rootAlone z (hmem hz)
  · intro z hz hcrumbs hedit
    have hone := hb.rootDeleted z (hmem hz) hcrumbs hedit
    exact List.perm_singleton.mp (hone ▸ h.perm)
  · exact fun z hz hedit x hx y hy => hb.sided z (hmem hz) hedit x (hmem hx) y (hmem hy)
  · exact fun z hz => hb.lawful z (hmem hz)
  · intro z hz c hc r list hlist
    have hfits := hb.fits z (hmem hz) c hc r list hlist
    show list.length + zs'.length < _
    rw [h.perm.length_eq]
    exact hfits
  · exact fun y hy z hz => hb.apart y (hmem hy) z (hmem hz)

/-! ### Deletions of the root, and insertions beside it -/

theorem two_le_length {α : Type} {a b : α} {list : List α} (ha : a ∈ list) (hb : b ∈ list)
    (hne : a ≠ b) : 2 ≤ list.length := by
  obtain ⟨front, rest, rfl⟩ := List.append_of_mem ha
  have hpos : 0 < (front ++ rest).length := by
    refine List.length_pos_of_mem (a := b) ?_
    rcases List.mem_append.mp hb with hb | hb
    · exact List.mem_append_left _ hb
    · exact List.mem_append_right _ ((List.mem_cons.mp hb).resolve_left (Ne.symm hne))
  simp only [List.length_append, List.length_cons] at hpos ⊢
  omega

section Lasting

variable {w : Zipper N} (hedit : w.edit ≠ .replace)

include hedit

/-- An edit that replaces nothing is not taken out of a batch, and it is not left alone. -/
theorem settle_lasting {groups : List (Identity N × List (Zipper N))}
    {rest rest' moved : List (Zipper N)}
    {s s' : σ} (hw : w ∈ rest)
    (hrun : (settle adapter groups rest).runWith s = (.ok (rest', moved), s')) :
    w ∈ rest' ∧ (2 ≤ rest.length ∨ groups ≠ [] → 2 ≤ (rest' ++ moved).length) := by
  induction groups generalizing rest rest' moved s with
  | nil =>
    cases hrun
    simpa using hw
  | cons g groups ih =>
    have hstays : ∀ crumbs, w.replacesAt crumbs = false := fun crumbs => by
      simp [Zipper.replacesAt, hedit]
    rw [settle_cons] at hrun
    split at hrun
    · -- the group gave way to a replacement, which is in the batch too
      next hgives =>
      obtain ⟨z, hz, hat, -⟩ := exists_of_givesWay hgives
      have hmany := two_le_length hw hz fun heq => by
        rw [← heq, hstays] at hat
        cases hat
      obtain ⟨hw', hlength⟩ := ih hw hrun
      exact ⟨hw', fun _ => hlength (.inl hmany)⟩
    · obtain ⟨m, s₁, -, hrun⟩ := Attempt.exists_of_bind_ok hrun
      obtain ⟨⟨rest₁, others⟩, s₂, hsettle, hout⟩ := Attempt.exists_of_bind_ok hrun
      cases hout
      have hw₁ : w ∈ rest.eraseP (·.replacesAt (position g.2)) :=
        (List.mem_eraseP_of_neg (by simp [hstays])).mpr hw
      obtain ⟨hw', -⟩ := ih hw₁ hsettle
      refine ⟨hw', fun _ => ?_⟩
      have hpos := List.length_pos_of_mem hw'
      change 2 ≤ (rest₁ ++ m :: others).length
      rw [List.length_append, List.length_cons]
      omega

variable (hroot : w.crumbs = [])

include hroot

theorem round_lasting {zs out : List (Zipper N)} {depth : Nat} {s s' : σ} (hw : w ∈ zs)
    (hmany : 2 ≤ zs.length)
    (hrun : (round adapter (depth + 1) zs).runWith s = (.ok out, s')) :
    w ∈ out ∧ 2 ≤ out.length := by
  rw [round, List.partition_eq_filter_filter] at hrun
  obtain ⟨⟨rest', moved⟩, s₁, hsettle, hrest⟩ := Attempt.exists_of_bind_ok hrun
  cases hrest
  have hw₀ : w ∈ zs.filter (not ∘ (·.depth == depth + 1)) := by
    simp [hw, Zipper.depth, hroot]
  obtain ⟨hw', hlength⟩ := settle_lasting hedit hw₀ hsettle
  refine ⟨List.mem_append_left _ hw', hlength ?_⟩
  -- unless all edits are above the level, some parent has a group
  by_cases hdeepest : zs.filter (·.depth == depth + 1) = []
  · left
    rw [List.filter_eq_self.mpr]
    · exact hmany
    · exact fun z hz => by simpa using List.filter_eq_nil_iff.mp hdeepest z hz
  · right
    intro hnone
    obtain ⟨z, hz⟩ := List.exists_mem_of_ne_nil _ hdeepest
    have hdepth : z.depth = depth + 1 := by simpa using (List.mem_filter.mp hz).2
    obtain ⟨c, above, hcrumbs⟩ := List.exists_cons_of_length_eq_add_one hdepth
    have hparent : parentId z = some (identity c.node) := by
      rw [parentId, Zipper.parent?, hcrumbs]
      rfl
    have hgroup := (levelGroups_spec zs (depth + 1)).covers z hz _ hparent
    rw [levelGroups, hnone] at hgroup
    exact absurd hgroup List.not_mem_nil

/-- **More than one edit of the root is left**, and this is refused. -/
theorem reconcile_lasting {zs out : List (Zipper N)} {depth : Nat} {s s' : σ} (hw : w ∈ zs)
    (hmany : 2 ≤ zs.length) : (reconcile adapter depth zs).runWith s ≠ (.ok out, s') := by
  intro hrun
  induction depth generalizing zs s with
  | zero =>
    rw [reconcile, if_neg (by omega)] at hrun
    cases hrun
  | succ depth ih =>
    rw [reconcile, if_neg (by omega)] at hrun
    obtain ⟨zs₁, s₁, hround, hrest⟩ := Attempt.exists_of_bind_ok hrun
    obtain ⟨hw₁, hmany₁⟩ := round_lasting hedit hroot hw hmany hround
    exact ih hw₁ hmany₁ hrest

end Lasting

/-- A batch that edits the root otherwise than by a replacement, and something else, is refused. -/
theorem toRoot_error_of_root (adapter : Adapter σ N) {w : Zipper N} (hw : w ∈ b.zippers)
    (hroot : w.crumbs = []) (hedit : w.edit ≠ .replace) (hmany : 2 ≤ b.zippers.length) (s : σ) :
    ∃ e s', (b.toRoot adapter).runWith s = (.error e, s') := by
  cases hrun : (reconcile adapter (height b.zippers) b.zippers).runWith s with
  | mk r s' =>
    cases r with
    | error e => exact ⟨e, s', Attempt.runWith_bind_error hrun _⟩
    | ok out => exact absurd hrun (reconcile_lasting hedit hroot hw hmany)

/-- The root alone is edited, once. -/
theorem toRoot_of_root {z : Zipper N} (hone : b.zippers = [z]) (hroot : z.crumbs = []) (s : σ) :
    (b.toRoot adapter).runWith s =
      match z.edit with
      | .replace => (.ok (some z.node), s)
      | .delete => (.ok none, s)
      | .insertBefore | .insertAfter => (.error .besideRoot, s) := by
  have hreconcile : (reconcile adapter (height b.zippers) b.zippers).runWith s = (.ok [z], s) := by
    rw [hone]
    cases height [z] <;> rfl
  rw [toRoot, Attempt.runWith_bind_ok hreconcile]
  show (z.toRoot adapter).runWith s = _
  rw [Zipper.toRoot, hroot]
  cases z.edit <;> rfl

/-! ### Results in any order -/

/-- Two outcomes **agree**: both are failures, or both are results that show one sketch. -/
inductive Agree (adapter : Adapter σ N) :
    Except Error (Option N) × σ → Except Error (Option N) × σ → Prop where
  | ok {result result' : Option N} (sketch : Option (Sketch N)) (s s' : σ)
      (shows : Option.Rel (Sketch.Shows adapter) sketch result)
      (shows' : Option.Rel (Sketch.Shows adapter) sketch result') :
      Agree adapter (.ok result, s) (.ok result', s')
  | error (e e' : Error) (s s' : σ) : Agree adapter (.error e, s) (.error e', s')

/-- **The order in which edits were collected does not matter.** Unless they delete the root or put
something beside it, the edits have to be coherent. -/
theorem toRoot_reordered
    (hb : (∀ z ∈ b.zippers, z.crumbs = [] → z.edit = .replace) → b.Coherent adapter)
    (h : Reordered b.zippers zs') (s s' : σ) :
    Agree adapter ((b.toRoot adapter).runWith s)
      (((b.withZippers zs').toRoot adapter).runWith s') := by
  by_cases hroot : ∀ z ∈ b.zippers, z.crumbs = [] → z.edit = .replace
  · by_cases hnil : b.zippers = []
    · have hnil' : (b.withZippers zs').zippers = [] := List.perm_nil.mp (hnil ▸ h.perm)
      rw [toRoot_of_nil adapter hnil, toRoot_of_nil adapter hnil']
      exact .ok (some (.keep b.root)) s s' (.some (.keep _)) (.some (.keep _))
    · have hne : (b.withZippers zs').zippers ≠ [] := fun hnil' =>
        hnil (List.nil_perm.mp (hnil' ▸ h.perm))
      -- both results show what all edits give at once, and that is the same
      obtain ⟨result, t, hrun, hshows⟩ := (hb hroot).toRoot_of_ne_nil hnil s
      obtain ⟨result', t', hrun', hshows'⟩ := ((hb hroot).reordered h).toRoot_of_ne_nil hne s'
      rw [simultaneous_reordered adapter h] at hshows'
      rw [hrun, hrun']
      exact .ok _ t t' hshows hshows'
  · push Not at hroot
    obtain ⟨w, hw, hcrumbs, hedit⟩ := hroot
    by_cases hmany : 2 ≤ b.zippers.length
    · have hmany' : 2 ≤ zs'.length := h.perm.length_eq ▸ hmany
      obtain ⟨e, t, hrun⟩ := toRoot_error_of_root adapter hw hcrumbs hedit hmany s
      obtain ⟨e', t', hrun'⟩ := toRoot_error_of_root (b := b.withZippers zs') adapter
        (h.perm.mem_iff.mpr hw) hcrumbs hedit hmany' s'
      rw [hrun, hrun']
      exact .error e e' t t'
    · -- a single edit has no other order
      have hone : b.zippers = [w] := eq_singleton hw (by omega)
      have hone' : (b.withZippers zs').zippers = [w] := List.perm_singleton.mp (hone ▸ h.perm)
      rw [toRoot_of_root hone hcrumbs, toRoot_of_root hone' hcrumbs]
      cases hkind : w.edit with
      | replace => exact absurd hkind hedit
      | delete => exact .ok none s s' .none .none
      | insertBefore => exact .error _ _ s s'
      | insertAfter => exact .error _ _ s s'

/-- Where no two edits are of one kind at one position, any order will do. -/
theorem Reordered.of_nodup (hperm : zs'.Perm zs)
    (hnodup : (zs.map fun z => (z.way, z.edit)).Nodup) : Reordered zs zs' := by
  refine ⟨hperm, fun way edit => ?_⟩
  have hfilter := hperm.filter fun z => decide (z.way = way ∧ z.edit = edit)
  have hkeys : ((zs.filter fun z => z.way = way ∧ z.edit = edit).map fun z => (z.way, z.edit)) =
      List.replicate (zs.filter fun z => z.way = way ∧ z.edit = edit).length (way, edit) := by
    refine List.map_eq_replicate_iff.mpr fun z hz => ?_
    obtain ⟨hway, hedit⟩ := of_decide_eq_true (List.mem_filter.mp hz).2
    rw [hway, hedit]
  have hone : (zs.filter fun z => z.way = way ∧ z.edit = edit).length ≤ 1 := by
    rw [← List.nodup_replicate (a := (way, edit)), ← hkeys]
    exact (List.filter_sublist.map _).nodup hnodup
  cases hlist : zs.filter fun z => decide (z.way = way ∧ z.edit = edit) with
  | nil =>
    rw [hlist] at hfilter
    exact List.perm_nil.mp hfilter
  | cons z rest =>
    rw [hlist] at hfilter hone
    obtain rfl : rest = [] := List.length_eq_zero_iff.mp (by simpa using hone)
    exact List.perm_singleton.mp hfilter

open Arborist.Graph

/-- The edits of the sample in the opposite order. -/
theorem toRoot_reordered_sample :
    Reordered sampleBatch.zippers sampleBatch.zippers.reverse ∧
      Agree (sampleTable.adapter : Adapter Nat Node)
        ((sampleBatch.toRoot (sampleTable.adapter : Adapter Nat Node)).runWith 0)
        (((sampleBatch.withZippers sampleBatch.zippers.reverse).toRoot
          (sampleTable.adapter : Adapter Nat Node)).runWith 0) := by
  have h : Reordered sampleBatch.zippers sampleBatch.zippers.reverse :=
    .of_nodup (List.reverse_perm _) (by decide)
  exact ⟨h, toRoot_reordered (fun _ => sample_coherent) h 0 0⟩

/-! ### Edits on both sides of a replacement -/

/-- Rebuilding keeps the name. -/
theorem label_of_rebuilds {t : Table} {node new : Node} {c : Children Node}
    (h : (t.adapter : Adapter Nat Node).Rebuilds node c new) : new.label = node.label := by
  obtain ⟨⟨s, s', hrun⟩, -⟩ := h
  change (t.rebuild node c).runWith s = _ at hrun
  rw [Table.rebuild] at hrun
  split at hrun
  · cases hrun
  · obtain ⟨_, _, -, hrun⟩ := Attempt.exists_of_bind_ok hrun
    cases hrun
    rfl

/-- Nodes that show one sketch have one name. -/
theorem label_eq_of_shows {t : Table} {sketch : Sketch Node} {m n : Node}
    (hm : sketch.Shows (t.adapter : Adapter Nat Node) m)
    (hn : sketch.Shows (t.adapter : Adapter Nat Node) n) : m.label = n.label := by
  cases hm with
  | keep => cases hn; rfl
  | rebuild rebuilt _ _ =>
    cases hn with
    | rebuild rebuilt' _ _ => rw [label_of_rebuilds rebuilt, label_of_rebuilds rebuilt']

/-- Different nodes that show one sketch have children of the same names. -/
theorem labels_eq_of_shows {t : Table} {sketch : Sketch Node} {m n : Node}
    (hm : sketch.Shows (t.adapter : Adapter Nat Node) m)
    (hn : sketch.Shows (t.adapter : Adapter Nat Node) n) (hne : m ≠ n) :
    (t.children m).flatten.map Node.label = (t.children n).flatten.map Node.label := by
  have hlists : ∀ {sketches : List (Sketch Node)} {ms ns : List Node},
      List.Forall₂ (Sketch.Shows (t.adapter : Adapter Nat Node)) sketches ms →
      List.Forall₂ (Sketch.Shows (t.adapter : Adapter Nat Node)) sketches ns →
      ms.map Node.label = ns.map Node.label := by
    intro sketches ms ns hms hns
    induction hms generalizing ns with
    | nil => cases hns; rfl
    | cons hm _ ih =>
      cases hns with
      | cons hn hns => rw [List.map_cons, List.map_cons, label_eq_of_shows hm hn, ih hns]
  cases hm with
  | keep => cases hn; exact absurd rfl hne
  | rebuild rebuilt _ children =>
    cases hn with
    | rebuild rebuilt' _ children' =>
      obtain ⟨-, rfl⟩ := rebuilt
      obtain ⟨-, rfl⟩ := rebuilt'
      exact hlists children children'

/-- A node, and another one to put in its place. -/
def sidesTable : Table where
  entries := [("root", ⟨[(.named "x", ["p"])]⟩), ("p", ⟨[(.named "x", ["c"])]⟩),
    ("q", ⟨[(.named "x", ["d"])]⟩)]

/-- A replacement, an edit below it, and an edit below the node that it replaces. -/
def sidesBatch : Batch Node where
  root := .listed "root"
  zippers := [
    ⟨.listed "q", [below "root" 0], .replace⟩,
    ⟨.listed "m", [below "q" 0, below "root" 0], .replace⟩,
    ⟨.listed "n", [below "p" 0, below "root" 0], .replace⟩]

/-- The same edits, with those below in the opposite order. -/
def sidesSwapped : List (Zipper Node) :=
  [⟨.listed "q", [below "root" 0], .replace⟩,
    ⟨.listed "n", [below "p" 0, below "root" 0], .replace⟩,
    ⟨.listed "m", [below "q" 0, below "root" 0], .replace⟩]

/-- **Edits on both sides of a replacement** depend on their order. All else is as it should be: the
edits are at positions of the tree or below the replacement, each at one of its own, what they bring
is new, and the two orders differ in edits of different positions only. Where the edit below the
replacement comes first, the other one finds no replacement that it would have to give way to, and
wins. -/
theorem toRoot_bothSides :
    Reordered sidesBatch.zippers sidesSwapped ∧
      (∀ z ∈ sidesBatch.zippers, ∃ node,
        sidesBatch.Reaches (sidesTable.adapter : Adapter Nat Node) z.crumbs node) ∧
      (∀ z ∈ sidesBatch.zippers, ∀ c ∈ z.crumbs,
        (sidesTable.adapter : Adapter Nat Node).LawfulAt c.node) ∧
      (sidesBatch.zippers.map Zipper.way).Nodup ∧
      (["root", "p", "c"].map (identity <| Node.listed ·) ++
        sidesBatch.zippers.map (identity ·.node)).Nodup ∧
      ¬Agree (sidesTable.adapter : Adapter Nat Node)
        ((sidesBatch.toRoot (sidesTable.adapter : Adapter Nat Node)).runWith 0)
        (((sidesBatch.withZippers sidesSwapped).toRoot
          (sidesTable.adapter : Adapter Nat Node)).runWith 0) := by
  refine ⟨.of_nodup (.cons _ (.swap _ _ _)) (by decide), ?_, ?_, by decide, by decide, ?_⟩
  · have hp : Reaches (sidesTable.adapter : Adapter Nat Node) sidesBatch [below "root" 0]
        (.listed "p") := .down .root rfl
    have hq : ⟨.listed "q", [below "root" 0], .replace⟩ ∈ sidesBatch.zippers := List.mem_cons_self
    simp only [sidesBatch, List.forall_mem_cons]
    exact ⟨⟨_, hp⟩, ⟨_, .through hp hq rfl rfl rfl⟩, ⟨_, .down hp rfl⟩, by simp⟩
  · intro z hz c hc
    simp only [sidesBatch, List.mem_cons, List.not_mem_nil, or_false] at hz
    rcases hz with rfl | rfl | rfl <;>
      simp only [List.mem_cons, List.not_mem_nil, or_false] at hc <;>
      rcases hc with rfl | rfl <;>
      exact Table.lawfulAt _ _ (by decide) List.not_mem_nil
  · intro hagree
    have hfirst : (sidesBatch.toRoot (sidesTable.adapter : Adapter Nat Node)).runWith 0 =
        (.ok (some (.built 2 "root" ⟨[(.named "x",
          [.built 1 "p" ⟨[(.named "x", [.listed "n"])]⟩])]⟩)), 3) := rfl
    have hsecond : ((sidesBatch.withZippers sidesSwapped).toRoot
        (sidesTable.adapter : Adapter Nat Node)).runWith 0 =
        (.ok (some (.built 1 "root" ⟨[(.named "x",
          [.built 0 "q" ⟨[(.named "x", [.listed "m"])]⟩])]⟩)), 2) := rfl
    rw [hfirst, hsecond] at hagree
    cases hagree with
    | ok sketch _ _ hshows hshows' =>
      cases hshows with
      | some hroot =>
        cases hshows' with
        | some hroot' => exact absurd (labels_eq_of_shows hroot hroot' (by simp)) (by decide)

end Batch

end Arborist
