import Arborist.Proofs.Reconciliation

/-!
# Round by round

Between two rounds the edits that are left are **settled** down to a depth: above it they are the
edits of the batch, and at it a position that has edits below carries one replacement, namely the
node that all edits at once make of it.

* For a coherent batch groups and positions are the same thing, and moving up a group is the step of
  `edited` (`Settled.moveUpGroup_shows`).
* `Settled.round` goes through one round, `Settled.reconcile` through all of them, and
  `Coherent.toRoot_of_ne_nil` adds the way of the last edit to the root.
* What every round hands down to the next holds of the state at the end
  (`Coherent.toRoot_handsDown`). The last edit goes to the root by rounds as well, as far as this is
  concerned.
-/

namespace Arborist

variable {σ N : Type} [Identified N]

namespace Batch

variable {adapter : Adapter σ N} {b : Batch N}

/-! ### Edits settled down to a depth -/

omit [Identified N] in
theorem depth_le_height {zs : List (Zipper N)} {z : Zipper N} (hz : z ∈ zs) :
    z.depth ≤ height zs := by
  induction zs with
  | nil => simp at hz
  | cons y zs ih =>
    rw [height, List.foldr_cons, ← height]
    rcases List.mem_cons.mp hz with rfl | hz
    · exact Nat.le_max_left _ _
    · exact Nat.le_trans (ih hz) (Nat.le_max_right _ _)

theorem edited_of_not_below {zs : List (Zipper N)} {way : Way N} {node : N}
    (h : editsBelow zs (standing zs way node) way = false) (levels : Nat) :
    edited adapter zs levels way node = .keep (standing zs way node) := by
  cases levels with
  | zero => rfl
  | succ levels => simp [edited, h]

/-- The edits `zs` that are left of the batch are **settled** down to a depth: above it they are
those of the batch, and at it a position with edits below is replaced by what all these edits make
of it at once. -/
structure Settled (adapter : Adapter σ N) (b : Batch N) (depth : Nat) (zs : List (Zipper N)) :
    Prop where
  depth_le : ∀ z ∈ zs, z.depth ≤ depth
  above : zs.filter (·.depth < depth) = b.zippers.filter (·.depth < depth)
  trodden : ∀ z ∈ zs, b.Trodden z.crumbs
  length_le : zs.length ≤ b.zippers.length
  others : ∀ (way : Way N) (edit : Edit), way.length = depth → edit ≠ .replace →
    carried zs way edit = carried b.zippers way edit
  merged : ∀ crumbs node, crumbs.length = depth → b.Trodden crumbs →
    b.Reaches adapter crumbs node →
    editsBelow b.zippers (standing b.zippers (Crumb.way crumbs) node) (Crumb.way crumbs) = true →
    ∃ new, carried zs (Crumb.way crumbs) .replace = [new] ∧
      (edited adapter b.zippers (height b.zippers - depth) (Crumb.way crumbs) node).Shows adapter new
  unmerged : ∀ crumbs node, crumbs.length = depth → b.Trodden crumbs →
    b.Reaches adapter crumbs node →
    editsBelow b.zippers (standing b.zippers (Crumb.way crumbs) node) (Crumb.way crumbs) = false →
    carried zs (Crumb.way crumbs) .replace = carried b.zippers (Crumb.way crumbs) .replace

/-- At the start everything is settled down to the deepest edit. -/
theorem settled_height (adapter : Adapter σ N) (b : Batch N) :
    Settled adapter b (height b.zippers) b.zippers where
  depth_le _ hz := depth_le_height hz
  above := rfl
  trodden z hz := ⟨z, hz, List.suffix_rfl⟩
  length_le := Nat.le_refl _
  others _ _ _ _ := rfl
  merged crumbs node hlen _ _ hbelow := by
    simp only [editsBelow, List.any_eq_true, Way.passes_iff] at hbelow
    obtain ⟨y, hy, l, hl⟩ := hbelow
    have hle := hl.length_le
    have hdepth := depth_le_height hy
    simp only [List.length_cons, Crumb.length_way, Zipper.length_way] at hle
    omega
  unmerged _ _ _ _ _ _ := rfl

variable {depth : Nat} {zs : List (Zipper N)}

section Round

variable (hb : b.Coherent adapter) (hs : Settled adapter b depth zs)

include hb hs

/-- A trodden position at the depth has one node: the sketched one, if it is replaced. -/
theorem Settled.shows {crumbs : List (Crumb N)} {node : N} (hlen : crumbs.length = depth)
    (ht : b.Trodden crumbs) (hr : b.Reaches adapter crumbs node) :
    (carried zs (Crumb.way crumbs) .replace).length ≤ 1 ∧
      (edited adapter b.zippers (height b.zippers - depth) (Crumb.way crumbs) node).Shows adapter
        ((carried zs (Crumb.way crumbs) .replace).headD node) := by
  cases hbelow : editsBelow b.zippers (standing b.zippers (Crumb.way crumbs) node)
      (Crumb.way crumbs) with
  | true =>
    obtain ⟨new, hnew, hshows⟩ := hs.merged crumbs node hlen ht hr hbelow
    rw [hnew]
    exact ⟨by simp, hshows⟩
  | false =>
    rw [hs.unmerged crumbs node hlen ht hr hbelow, edited_of_not_below hbelow]
    exact ⟨hb.carried_length_le .replace rfl _, .keep _⟩

/-- No trodden position at the depth is lost. -/
theorem Settled.exists_at {crumbs : List (Crumb N)} (hlen : crumbs.length = depth)
    (ht : b.Trodden crumbs) : ∃ z ∈ zs, z.way = Crumb.way crumbs := by
  obtain ⟨node, hnode⟩ := hb.reaches ht
  have hfound : ∀ edit m, m ∈ carried zs (Crumb.way crumbs) edit →
      ∃ z ∈ zs, z.way = Crumb.way crumbs := fun edit m hm => by
    obtain ⟨z, hz, hway, -⟩ := mem_carried.mp hm
    exact ⟨z, hz, hway⟩
  by_cases hbelow : editsBelow b.zippers (standing b.zippers (Crumb.way crumbs) node)
      (Crumb.way crumbs) = true
  · obtain ⟨new, hnew, -⟩ := hs.merged crumbs node hlen ht hnode hbelow
    exact hfound .replace new (by simp [hnew])
  · have hun := hs.unmerged crumbs node hlen ht hnode (by simpa using hbelow)
    obtain ⟨y, hy, hsuffix⟩ := ht
    by_cases hrep : ∃ z ∈ b.zippers, z.edit = .replace ∧ z.crumbs = crumbs
    · obtain ⟨z, hz, hedit, rfl⟩ := hrep
      exact hfound .replace z.node (by
        rw [hun]
        exact mem_carried.mpr ⟨z, hz, rfl, hedit, rfl⟩)
    -- nothing is replaced here, so an edit further down would run through the node itself
    · have hown : y.crumbs = crumbs := by
        obtain ⟨front, hfront⟩ := hsuffix
        rcases List.eq_nil_or_concat front with rfl | ⟨front, c, rfl⟩
        · simpa using hfront.symm
        · have hc : b.Trodden (c :: crumbs) := ⟨y, hy, front, by simpa using hfront⟩
          refine absurd ((hb.editsBelow_iff hc.tail hnode).mpr ⟨c.location, ?_⟩) hbelow
          rw [hb.standing_original hrep hc.tail, ← hb.eq_original hrep hc hnode]
          exact hc
      have hne : y.edit ≠ .replace := fun hedit => hrep ⟨y, hy, hedit, hown⟩
      exact hfound y.edit y.node (by
        rw [hs.others _ _ (by simpa using hlen) hne]
        exact mem_carried.mpr ⟨y, hy, congrArg Crumb.way hown, rfl, rfl⟩)

end Round

/-! ### Groups are positions -/

/-- A group holds edits below one node at one position. -/
structure Below (b : Batch N) (g : Identity N × List (Zipper N)) (base : N)
    (above : List (Crumb N)) : Prop where
  identity_eq : identity base = g.1
  position_eq : position g.2 = above
  crumbs_eq : ∀ z ∈ g.2, ∃ l, z.crumbs = ⟨base, l⟩ :: above
  trodden : ∃ l, b.Trodden (⟨base, l⟩ :: above)

theorem Below.trodden_above {g : Identity N × List (Zipper N)} {base : N}
    {above : List (Crumb N)} (h : Below b g base above) : b.Trodden above :=
  h.trodden.elim fun _ => Trodden.tail

/-- The groups of one level. -/
def levelGroups (zs : List (Zipper N)) (depth : Nat) : List (Identity N × List (Zipper N)) :=
  groupByParent (zs.filter (·.depth == depth))

theorem levelGroups_spec (zs : List (Zipper N)) (depth : Nat) :
    Grouped (zs.filter (·.depth == depth)) (levelGroups zs depth) :=
  groupByParent_spec _

theorem parentId_eq_some {z : Zipper N} {p : Identity N} (h : parentId z = some p) :
    ∃ c above, z.crumbs = c :: above ∧ identity c.node = p := by
  cases hz : z.crumbs with
  | nil => simp [parentId, Zipper.parent?, hz] at h
  | cons c above =>
    simp only [parentId, Zipper.parent?, hz, List.head?_cons, Option.map_some,
      Option.some.injEq] at h
    exact ⟨c, above, rfl, h⟩

/-- The position below a trodden node is trodden if an edit of the batch has its way. -/
theorem Coherent.trodden_of_way (hb : b.Coherent adapter) {base : N} {above : List (Crumb N)}
    (hbase : ∃ l, b.Trodden (⟨base, l⟩ :: above)) {l : Location} {y : Zipper N}
    (hy : y ∈ b.zippers) (hway : (identity base, l) :: Crumb.way above <:+ y.way) :
    b.Trodden (⟨base, l⟩ :: above) := by
  obtain ⟨xs, hxs, hxway⟩ := suffix_of_way hway
  cases xs with
  | nil => simp at hxway
  | cons c beyond =>
    obtain ⟨m, x, hx, hsuffix⟩ := hbase
    simp only [Crumb.way_cons, List.cons.injEq, Prod.mk.injEq] at hxway
    obtain ⟨⟨hid, hloc⟩, hbeyond⟩ := hxway
    have hlen : beyond.length = above.length := by
      simpa using congrArg List.length hbeyond
    obtain ⟨hnode, rfl⟩ := hb.apart y hy x hx c ⟨base, m⟩ beyond above hxs hsuffix hlen hid
    have hc : c = ⟨base, l⟩ := Crumb.ext_of hnode hloc
    exact ⟨y, hy, hc ▸ hxs⟩

/-- What a group carries at a location is what is left of the batch at that position. -/
theorem carriedAt_eq_carried {g : Identity N × List (Zipper N)}
    (hg : g ∈ levelGroups zs (depth + 1)) {base : N}
    {above : List (Crumb N)} (hbelow : Below b g base above) (hlen : above.length = depth)
    (l : Location) (edit : Edit) :
    carriedAt g.2 l edit = carried zs ((identity base, l) :: Crumb.way above) edit := by
  have hgroup := (levelGroups_spec zs (depth + 1)).group_eq g hg
  rw [carriedAt, carried]
  conv_lhs => rw [hgroup]
  simp only [List.filter_filter]
  congr 1
  refine List.filter_congr fun z hz => ?_
  rw [Bool.eq_iff_iff]
  simp only [Bool.and_eq_true, decide_eq_true_eq, beq_iff_eq]
  constructor
  · rintro ⟨⟨hloc, hedit⟩, hparent, hdepth⟩
    have hzg : z ∈ g.2 := by
      rw [hgroup]
      simp [hz, hdepth, hparent]
    obtain ⟨m, hm⟩ := hbelow.crumbs_eq z hzg
    have hml : m = l := by simpa [Zipper.location?, hm] using hloc
    subst hml
    exact ⟨by simp [Zipper.way, hm], hedit⟩
  · rintro ⟨hway, hedit⟩
    cases hcrumbs : z.crumbs with
    | nil => simp [Zipper.way, hcrumbs] at hway
    | cons c beyond =>
      simp only [Zipper.way, hcrumbs, Crumb.way_cons, List.cons.injEq, Prod.mk.injEq] at hway
      obtain ⟨⟨hid, hloc⟩, hbeyond⟩ := hway
      have hlen' : beyond.length = depth := by
        rw [← hlen]
        simpa using congrArg List.length hbeyond
      refine ⟨⟨by simp [Zipper.location?, hcrumbs, hloc], hedit⟩, ?_, ?_⟩
      · simp [parentId, Zipper.parent?, hcrumbs, hid, hbelow.identity_eq]
      · simp [Zipper.depth, hcrumbs, hlen']

/-- Two groups at one position are the same. -/
theorem Coherent.group_unique (hb : b.Coherent adapter) {g h : Identity N × List (Zipper N)}
    {base other : N} {above : List (Crumb N)} (hg : Below b g base above)
    (hh : Below b h other above) : g.1 = h.1 := by
  obtain ⟨l, hl⟩ := hg.trodden
  obtain ⟨m, hm⟩ := hh.trodden
  rw [← hg.identity_eq, ← hh.identity_eq]
  by_cases hrep : ∃ z ∈ b.zippers, z.edit = .replace ∧ z.crumbs = above
  · obtain ⟨z, hz, hedit, rfl⟩ := hrep
    obtain ⟨x, hx, hxs⟩ := hl
    obtain ⟨y, hy, hys⟩ := hm
    exact hb.sided z hz hedit x hx y hy ⟨base, l⟩ ⟨other, m⟩ hxs hys
  -- without a replacement both are the node that was there
  · obtain ⟨node, hnode⟩ := hb.reaches hl.tail
    have hbase : base = node := hb.eq_original hrep hl hnode
    have hother : other = node := hb.eq_original hrep hm hnode
    rw [hbase, hother]

section Groups

variable (hb : b.Coherent adapter) (hs : Settled adapter b (depth + 1) zs)

include hb hs

theorem Settled.below {g : Identity N × List (Zipper N)}
    (hg : g ∈ levelGroups zs (depth + 1)) :
    ∃ base above, Below b g base above ∧ above.length = depth := by
  have hspec := levelGroups_spec zs (depth + 1)
  have hmem : ∀ z ∈ g.2, z ∈ zs ∧ z.depth = depth + 1 ∧ parentId z = some g.1 := by
    intro z hz
    rw [hspec.group_eq g hg] at hz
    simpa [and_assoc, and_comm] using hz
  obtain ⟨first, others, hfirst⟩ := List.exists_cons_of_ne_nil (hspec.nonempty g hg)
  obtain ⟨hzs, hdepth, hparent⟩ := hmem first (by simp [hfirst])
  obtain ⟨c, above, hcrumbs, hid⟩ := parentId_eq_some hparent
  have hlen : above.length = depth := by
    simpa [Zipper.depth, hcrumbs] using hdepth
  refine ⟨c.node, above, ⟨hid, ?_, ?_, c.location, hcrumbs ▸ hs.trodden first hzs⟩, hlen⟩
  · simp [position, hfirst, hcrumbs]
  · intro z hz
    obtain ⟨hzs', hdepth', hparent'⟩ := hmem z hz
    obtain ⟨d, beyond, hcrumbs', hid'⟩ := parentId_eq_some hparent'
    obtain ⟨x, hx, hxs⟩ := hs.trodden first hzs
    obtain ⟨y, hy, hys⟩ := hs.trodden z hzs'
    have hlen' : beyond.length = above.length := by
      rw [hlen]
      simpa [Zipper.depth, hcrumbs'] using hdepth'
    obtain ⟨hnode, rfl⟩ := hb.apart y hy x hx d c beyond above (hcrumbs' ▸ hys) (hcrumbs ▸ hxs)
      hlen' (hid'.trans hid.symm)
    exact ⟨d.location, by rw [hcrumbs', ← hnode]⟩

/-- A child of a group's parent becomes what all edits at once put in its place. -/
theorem Settled.slot_shows {g : Identity N × List (Zipper N)}
    (hg : g ∈ levelGroups zs (depth + 1)) {base : N}
    {above : List (Crumb N)} (hbelow : Below b g base above) (hlen : above.length = depth)
    {l : Location} {child : N} (hchild : (adapter.children base).at? l = some child) :
    List.Forall₂ (Sketch.Shows adapter)
      (surrounded b.zippers ((identity base, l) :: Crumb.way above)
        (edited adapter b.zippers (height b.zippers - (depth + 1))
          ((identity base, l) :: Crumb.way above) child))
      (slot g.2 l child) := by
  have hcarried := carriedAt_eq_carried hg hbelow hlen l
  have hothers : ∀ edit, edit ≠ .replace → carriedAt g.2 l edit =
      carried b.zippers ((identity base, l) :: Crumb.way above) edit := by
    intro edit hedit
    rw [hcarried, hs.others _ _ (by simp [hlen]) hedit]
  -- the child itself, or what is left to replace it
  have hcenter : (edited adapter b.zippers (height b.zippers - (depth + 1))
      ((identity base, l) :: Crumb.way above) child).Shows adapter
        ((carriedAt g.2 l .replace).headD child) := by
    rw [hcarried]
    by_cases ht : b.Trodden (⟨base, l⟩ :: above)
    · obtain ⟨child', hreach⟩ := hb.reaches ht
      have hsame : child = child' := by
        have hfound := hreach.tail.1
        rw [hchild] at hfound
        exact Option.some.inj hfound
      rw [← hsame] at hreach
      exact (hs.shows hb (by simp [hlen]) ht hreach).2
    · have huntrodden : ∀ y ∈ b.zippers, ¬(identity base, l) :: Crumb.way above <:+ y.way :=
        fun y hy hway => ht (hb.trodden_of_way hbelow.trodden hy hway)
      have hnil : carried zs ((identity base, l) :: Crumb.way above) .replace = [] := by
        refine carried_eq_nil fun z hz hway _ => ?_
        obtain ⟨y, hy, hsuffix⟩ := hs.trodden z hz
        exact huntrodden y hy (hway ▸ hsuffix.map Crumb.step)
      have hstand : standing b.zippers ((identity base, l) :: Crumb.way above) child = child := by
        rw [standing, carried_eq_nil fun y hy hway _ => huntrodden y hy (hway ▸ List.suffix_rfl)]
        rfl
      rw [edited_of_not_below ?_, hstand, hnil]
      · exact .keep child
      · simp only [editsBelow, List.any_eq_false, Way.passes_iff, not_exists]
        intro y hy m hm
        exact huntrodden y hy ((List.suffix_cons _ _).trans hm)
  rw [surrounded, slot, hothers .insertBefore (by simp), hothers .insertAfter (by simp),
    hothers .delete (by simp)]
  refine List.rel_append (List.rel_append (Sketch.shows_map_keep _ _) ?_)
    (Sketch.shows_map_keep _ _)
  split
  · exact .cons hcenter .nil
  · exact .nil

/-- Every edit of a group is at a child of the group's parent. -/
theorem Settled.exists_child {g : Identity N × List (Zipper N)}
    (hg : g ∈ levelGroups zs (depth + 1)) {base : N} {above : List (Crumb N)}
    (hbelow : Below b g base above) {z : Zipper N} (hz : z ∈ g.2) :
    ∃ l child, z.location? = some l ∧ (adapter.children base).at? l = some child ∧
      b.Trodden (⟨base, l⟩ :: above) ∧ b.Reaches adapter (⟨base, l⟩ :: above) child := by
  have hzs : z ∈ zs := by
    have hgroup := (levelGroups_spec zs (depth + 1)).group_eq g hg ▸ hz
    exact (List.mem_filter.mp (List.mem_filter.mp hgroup).1).1
  obtain ⟨l, hl⟩ := hbelow.crumbs_eq z hz
  have ht := hs.trodden z hzs
  obtain ⟨child, hreach⟩ := hb.reaches ht
  rw [hl] at ht hreach
  exact ⟨l, child, by simp [Zipper.location?, hl], hreach.tail.1, ht, hreach⟩

/-- A group **replaces** a child once at most. -/
theorem Settled.length_replacements {g : Identity N × List (Zipper N)}
    (hg : g ∈ levelGroups zs (depth + 1)) {base : N} {above : List (Crumb N)}
    (hbelow : Below b g base above) (hlen : above.length = depth) (l : Location) :
    (carriedAt g.2 l .replace).length ≤ 1 := by
  by_cases hnil : carriedAt g.2 l .replace = []
  · simp [hnil]
  · obtain ⟨n, hn⟩ := List.exists_mem_of_ne_nil _ hnil
    simp only [carriedAt, List.mem_map, List.mem_filter, decide_eq_true_eq] at hn
    obtain ⟨z, ⟨hz, hloc, -⟩, -⟩ := hn
    obtain ⟨l', child, hloc', -, ht, hreach⟩ := hs.exists_child hb hg hbelow hz
    obtain rfl : l' = l := Option.some.inj (hloc'.symm.trans hloc)
    rw [carriedAt_eq_carried hg hbelow hlen]
    exact (hs.shows hb (by simp [hlen]) ht hreach).1

/-- A group **deletes** a child once at most. -/
theorem Settled.length_deletions {g : Identity N × List (Zipper N)}
    (hg : g ∈ levelGroups zs (depth + 1)) {base : N} {above : List (Crumb N)}
    (hbelow : Below b g base above) (hlen : above.length = depth) (l : Location) :
    (carriedAt g.2 l .delete).length ≤ 1 := by
  rw [carriedAt_eq_carried hg hbelow hlen, hs.others _ _ (by simp [hlen]) (by simp)]
  exact hb.carried_length_le .delete rfl _

/-- The edits of a group fit its parent, and each child gets the slot that they make of it. -/
theorem Settled.spliceAll_group {g : Identity N × List (Zipper N)}
    (hg : g ∈ levelGroups zs (depth + 1)) {base : N} {above : List (Crumb N)}
    (hbelow : Below b g base above) (hlen : above.length = depth) :
    spliceAll (adapter.children base) (fun _ => 0) (inOrder g.2) =
      .ok ((adapter.children base).spread (slot g.2)) := by
  obtain ⟨m, y, hy, hsuffix⟩ := hbelow.trodden
  have hmem : (⟨base, m⟩ : Crumb N) ∈ y.crumbs := hsuffix.subset List.mem_cons_self
  have hcount : g.2.length ≤ b.zippers.length := by
    refine Nat.le_trans ?_ hs.length_le
    rw [(levelGroups_spec zs (depth + 1)).group_eq g hg]
    exact Nat.le_trans (List.length_filter_le _ _) (List.length_filter_le _ _)
  refine spliceAll_inOrder (hb.lawful y hy _ hmem).roles_nodup (fun z hz => ?_)
    (hs.length_replacements hb hg hbelow hlen) (hs.length_deletions hb hg hbelow hlen)
    fun r list hr => ?_
  · obtain ⟨l, child, hloc, hchild, -⟩ := hs.exists_child hb hg hbelow hz
    exact ⟨l, child, hloc, hchild⟩
  · have hfits := hb.fits y hy _ hmem r list hr
    omega

/-- **Moving up a group** succeeds, and the rebuilt parent shows what all edits at once make of it,
provided the parent is the node that stands at its position. -/
theorem Settled.moveUpGroup_shows {g : Identity N × List (Zipper N)}
    (hg : g ∈ levelGroups zs (depth + 1)) {base : N}
    {above : List (Crumb N)} (hbelow : Below b g base above) (hlen : above.length = depth)
    {node : N} (hstand : base = standing b.zippers (Crumb.way above) node) (s : σ) :
    ∃ new s', (moveUpGroup adapter g.2).runWith s = (.ok { node := new, crumbs := above }, s') ∧
      (edited adapter b.zippers (height b.zippers - depth) (Crumb.way above) node).Shows adapter
        new := by
  obtain ⟨m, y, hy, hsuffix⟩ := hbelow.trodden
  have hlawful := hb.lawful y hy ⟨base, m⟩ (hsuffix.subset List.mem_cons_self)
  obtain ⟨new, s', hrebuild, hnew⟩ := hlawful.rebuild
    ((adapter.children base).spread (slot g.2)) s (Children.roles_spread _ _)
  refine ⟨new, s', ?_, ?_⟩
  · have hsplice := hs.spliceAll_group hb hg hbelow hlen
    obtain ⟨first, others, horder⟩ : ∃ first others, inOrder g.2 = first :: others := by
      refine List.exists_cons_of_ne_nil fun hnil => ?_
      exact (levelGroups_spec zs (depth + 1)).nonempty g hg (by
        simpa using congrArg List.length hnil)
    obtain ⟨l, hl⟩ := hbelow.crumbs_eq first (mem_inOrder.mp (by simp [horder]))
    rw [horder] at hsplice
    simp only [moveUpGroup, horder, hl, hsplice, Attempt.ofExcept]
    rw [Attempt.runWith_bind_ok (Attempt.runWith_pure _ _), Attempt.runWith_bind_ok hrebuild]
    rfl
  · have hheight : height b.zippers - depth = height b.zippers - (depth + 1) + 1 := by
      have hle := Nat.le_trans hsuffix.length_le (depth_le_height hy)
      simp only [List.length_cons, hlen] at hle
      omega
    have hedits : editsBelow b.zippers base (Crumb.way above) = true := by
      simp only [editsBelow, List.any_eq_true, Way.passes_iff]
      exact ⟨y, hy, m, hsuffix.map Crumb.step⟩
    have hrelated := Children.spread_related hlawful.roles_nodup fun l child hchild =>
      hs.slot_shows hb hg hbelow hlen hchild
    rw [hheight, edited, ← hstand]
    simp only [hedits, if_true]
    exact .rebuild ⟨⟨s, s', hrebuild⟩, hnew⟩ hrelated.1 hrelated.2

end Groups

/-! ### One round -/

theorem head_of_replacesAt {z : Zipper N} {above : List (Crumb N)}
    (h : z.replacesAt above = true) :
    z.edit = .replace ∧ z.depth = above.length ∧
      z.crumbs.head?.map Crumb.step = above.head?.map Crumb.step := by
  simp only [Zipper.replacesAt, Bool.and_eq_true, beq_iff_eq] at h
  obtain ⟨⟨hedit, hdepth⟩, hhead⟩ := h
  refine ⟨hedit, hdepth, ?_⟩
  cases hz : z.crumbs.head? with
  | none =>
    cases ha : above.head? with
    | none => rfl
    | some d => simp [hz, ha] at hhead
  | some c =>
    cases ha : above.head? with
    | none => simp [hz, ha] at hhead
    | some d =>
      simp only [hz, ha, Bool.and_eq_true, beq_iff_eq, sameNode, decide_eq_true_eq] at hhead
      simp [Crumb.step, hhead.1, hhead.2]

theorem Coherent.replacesAt_iff (hb : b.Coherent adapter) {z : Zipper N} (hz : z ∈ b.zippers)
    {above : List (Crumb N)} (ht : b.Trodden above) :
    z.replacesAt above = true ↔ z.edit = .replace ∧ z.crumbs = above := by
  constructor
  · intro h
    obtain ⟨hedit, hdepth, hhead⟩ := head_of_replacesAt h
    exact ⟨hedit, hb.eq_of_head ⟨z, hz, List.suffix_rfl⟩ ht hdepth hhead⟩
  · rintro ⟨hedit, rfl⟩
    rw [Zipper.replacesAt, hedit, Zipper.depth]
    cases z.crumbs with
    | nil => rfl
    | cons c above => simp [sameNode]

/-- What a round leaves alone: the edits of the batch above the depth. -/
theorem Settled.partition (hs : Settled adapter b (depth + 1) zs) :
    zs.partition (·.depth == depth + 1) =
      (zs.filter (·.depth == depth + 1), b.zippers.filter (·.depth < depth + 1)) := by
  rw [List.partition_eq_filter_filter, ← hs.above]
  congr 1
  refine List.filter_congr fun z hz => ?_
  have hle := hs.depth_le z hz
  rw [Bool.eq_iff_iff]
  simp only [Function.comp, Bool.not_eq_true', beq_eq_false_iff_ne, decide_eq_true_eq]
  omega

/-- A group **survives** a coherent round if and only if its parent stands at its position. -/
theorem Coherent.survives_iff (hb : b.Coherent adapter) {g : Identity N × List (Zipper N)}
    {base node : N} {above : List (Crumb N)} (hbelow : Below b g base above)
    (hlen : above.length = depth) (hnode : b.Reaches adapter above node) :
    survives (b.zippers.filter (·.depth < depth + 1)) g = true ↔
      base = standing b.zippers (Crumb.way above) node := by
  obtain ⟨l, hl⟩ := hbelow.trodden
  have habove : b.Trodden above := hl.tail
  simp only [survives, List.all_eq_true, List.mem_filter, decide_eq_true_eq, Bool.or_eq_true,
    Bool.not_eq_true', hbelow.position_eq, ← hbelow.identity_eq]
  by_cases hrep : ∃ z ∈ b.zippers, z.edit = .replace ∧ z.crumbs = above
  · obtain ⟨z, hz, hedit, rfl⟩ := hrep
    have hat : z.replacesAt z.crumbs = true := (hb.replacesAt_iff hz habove).mpr ⟨hedit, rfl⟩
    rw [hb.standing_replaced hz hedit]
    constructor
    · intro hall
      rcases hall z ⟨hz, by rw [Zipper.depth]; omega⟩ with hnot | hid
      · simp [hat] at hnot
      · obtain ⟨y, hy, hsuffix⟩ := hl
        exact hb.fresh z hz hedit y hy ⟨base, l⟩ hsuffix hid.symm
    · rintro rfl y ⟨hy, -⟩
      by_cases hyat : y.replacesAt z.crumbs = true
      · obtain ⟨hyedit, hycrumbs⟩ := (hb.replacesAt_iff hy habove).mp hyat
        refine .inr ?_
        have hstand := hb.standing_replaced hy hyedit node
        rw [hycrumbs, hb.standing_replaced hz hedit] at hstand
        rw [hstand]
      · exact .inl (by simpa using hyat)
  · rw [hb.standing_original hrep habove]
    constructor
    · intro _
      exact hb.eq_original hrep hl hnode
    · intro _ y hy
      refine .inl ?_
      by_contra hyat
      have hy' := (hb.replacesAt_iff hy.1 habove).mp (by simpa using hyat)
      exact hrep ⟨y, hy.1, hy'⟩

section Moved

variable {made : Identity N × List (Zipper N) → N → Prop}
  {groups : List (Identity N × List (Zipper N))} {moved : List (Zipper N)}
  (hmoved : List.Forall₂
    (fun g m => ∃ new, m = { node := new, crumbs := position g.2 } ∧ made g new) groups moved)

include hmoved

theorem mem_moved {z : Zipper N} (hz : z ∈ moved) :
    z.edit = .replace ∧ ∃ g ∈ groups, z.crumbs = position g.2 := by
  induction hmoved with
  | nil => simp at hz
  | cons h _ ih =>
    rcases List.mem_cons.mp hz with rfl | hz
    · obtain ⟨new, rfl, -⟩ := h
      exact ⟨rfl, _, List.mem_cons_self, rfl⟩
    · obtain ⟨hedit, g, hg, hcrumbs⟩ := ih hz
      exact ⟨hedit, g, List.mem_cons_of_mem _ hg, hcrumbs⟩

/-- Where no group was, nothing is put by the groups that moved up. -/
theorem carried_moved_eq_nil {way : Way N}
    (hnone : ∀ g ∈ groups, Crumb.way (position g.2) ≠ way) (edit : Edit) :
    carried moved way edit = [] := by
  refine carried_eq_nil fun z hz hway _ => ?_
  obtain ⟨-, g, hg, hcrumbs⟩ := mem_moved hmoved hz
  exact hnone g hg (hcrumbs ▸ hway)

/-- At the position of a group stands what became of its parent. -/
theorem carried_moved_eq {way : Way N} {g : Identity N × List (Zipper N)}
    (hpair : groups.Pairwise fun g h => Crumb.way (position g.2) ≠ Crumb.way (position h.2))
    (hg : g ∈ groups) (hway : Crumb.way (position g.2) = way) :
    ∃ new, carried moved way .replace = [new] ∧ made g new := by
  induction hmoved with
  | nil => simp at hg
  | @cons h m groups moved hm hmoved ih =>
    obtain ⟨new, rfl, hmade⟩ := hm
    rw [List.pairwise_cons] at hpair
    rw [← List.singleton_append, carried_append]
    rcases List.mem_cons.mp hg with rfl | hg
    · refine ⟨new, ?_, hmade⟩
      rw [carried_moved_eq_nil hmoved fun h hh heq => hpair.1 h hh (hway.trans heq.symm)]
      simp [carried, Zipper.way, hway]
    · obtain ⟨new', hnew', hmade'⟩ := ih hpair.2 hg
      refine ⟨new', ?_, hmade'⟩
      have hother : Crumb.way (position h.2) ≠ way := fun heq => hpair.1 g hg (heq.trans hway.symm)
      rw [hnew']
      simp [carried, Zipper.way, hother]

end Moved

/-- The edits of the batch above a level that no group of the level absorbs. -/
def unabsorbed (b : Batch N) (depth : Nat) (groups : List (Identity N × List (Zipper N))) :
    List (Zipper N) :=
  (b.zippers.filter (·.depth < depth + 1)).filter fun z => !groups.any fun g => absorbs g z

theorem mem_unabsorbed {groups : List (Identity N × List (Zipper N))} {z : Zipper N} :
    z ∈ b.unabsorbed depth groups ↔
      z ∈ b.zippers ∧ z.depth ≤ depth ∧ ∀ g ∈ groups, absorbs g z = false := by
  simp only [unabsorbed, List.mem_filter, decide_eq_true_eq, Bool.not_eq_true', List.any_eq_false,
    Bool.not_eq_true, Nat.lt_succ_iff, and_assoc]

/-- What a position carries above the level, unless it is absorbed. -/
theorem carried_unabsorbed {groups : List (Identity N × List (Zipper N))} {way : Way N}
    {edit : Edit} (hlen : way.length ≤ depth)
    (hkept : ∀ z ∈ b.zippers, z.way = way → z.edit = edit → ∀ g ∈ groups, absorbs g z = false) :
    carried (b.unabsorbed depth groups) way edit = carried b.zippers way edit := by
  rw [unabsorbed, carried_filter, carried_filter]
  · intro z _ hway _
    rw [← hway, Zipper.length_way] at hlen
    simpa using Nat.lt_succ_of_le hlen
  · intro z hz hway hedit
    simpa using hkept z (List.mem_filter.mp hz).1 hway hedit

/-- The groups that survived have **moved up**: each became the node that all edits at once make of
its parent. -/
def MovedUp (adapter : Adapter σ N) (b : Batch N) (depth : Nat) (zs moved : List (Zipper N)) :
    Prop :=
  List.Forall₂ (fun g m => ∃ new, m = { node := new, crumbs := position g.2 } ∧
      ∀ node, b.Reaches adapter (position g.2) node →
        (edited adapter b.zippers (height b.zippers - depth) (Crumb.way (position g.2))
          node).Shows adapter new)
    ((levelGroups zs (depth + 1)).filter (survives (b.zippers.filter (·.depth < depth + 1)))) moved

section Step

variable (hb : b.Coherent adapter) (hs : Settled adapter b (depth + 1) zs)

include hb

theorem Coherent.absorbs_iff {g : Identity N × List (Zipper N)} {base : N}
    {above : List (Crumb N)} (hbelow : Below b g base above) {z : Zipper N} (hz : z ∈ b.zippers) :
    absorbs g z = true ↔ z.edit = .replace ∧ z.crumbs = above ∧ z.node = base := by
  obtain ⟨l, y, hy, hsuffix⟩ := hbelow.trodden
  have habove : b.Trodden above := hbelow.trodden_above
  rw [absorbs, Bool.and_eq_true, hbelow.position_eq, hb.replacesAt_iff hz habove, and_assoc,
    decide_eq_true_eq, ← hbelow.identity_eq]
  refine and_congr_right fun hedit => and_congr_right fun hcrumbs => ⟨fun hid => ?_, fun h => by rw [h]⟩
  exact (hb.fresh z hz hedit y hy ⟨base, l⟩ (hcrumbs ▸ hsuffix) hid.symm).symm

/-- Groups of one level are at different positions. -/
theorem Coherent.groups_apart (zs : List (Zipper N)) (depth : Nat) :
    (levelGroups zs depth).Pairwise fun g h => ∀ base other above,
      Below b g base above → ¬Below b h other above := by
  have hdistinct := List.pairwise_map.mp (levelGroups_spec zs depth).distinct
  exact hdistinct.imp fun hne base other above hg hh => hne (hb.group_unique hg hh)

include hs

/-- The groups move up, those that survive at least. -/
theorem Settled.settle (s : σ) :
    ∃ moved s', (Batch.settle adapter (levelGroups zs (depth + 1))
        (b.zippers.filter (·.depth < depth + 1))).runWith s =
        (.ok (b.unabsorbed depth (levelGroups zs (depth + 1)), moved), s') ∧
      MovedUp adapter b depth zs moved := by
  refine settle_ok adapter _ ?_ ?_ ?_ s
  · refine (hb.groups_apart _ _).imp_of_mem fun {g h} hg hh hapart z hzg => ?_
    obtain ⟨base, above, hbelow, hlen⟩ := hs.below hb hg
    obtain ⟨other, beyond, hbelow', hlen'⟩ := hs.below hb hh
    rw [hbelow.position_eq] at hzg
    rw [hbelow'.position_eq, Bool.eq_false_iff]
    intro hzh
    have hhead := (head_of_replacesAt hzg).2.2.symm.trans (head_of_replacesAt hzh).2.2
    obtain rfl := hb.eq_of_head hbelow.trodden_above hbelow'.trodden_above
      (hlen.trans hlen'.symm) hhead
    exact hapart base other above hbelow hbelow'
  · intro g hg
    obtain ⟨base, above, hbelow, hlen⟩ := hs.below hb hg
    have habove := hbelow.trodden_above
    rw [hbelow.position_eq]
    refine (hb.once.filter _).imp_of_mem fun {y z} hy hz honce hboth => ?_
    obtain ⟨hyedit, hycrumbs⟩ :=
      (hb.replacesAt_iff (List.mem_filter.mp hy).1 habove).mp hboth.1
    obtain ⟨hzedit, hzcrumbs⟩ :=
      (hb.replacesAt_iff (List.mem_filter.mp hz).1 habove).mp hboth.2
    refine honce (by rw [hyedit]; rfl) (by rw [hzedit]; rfl) ?_
    rw [Zipper.way, Zipper.way, hycrumbs, hzcrumbs]
  · intro g hg hsurvives s
    obtain ⟨base, above, hbelow, hlen⟩ := hs.below hb hg
    obtain ⟨node, hnode⟩ := hb.reaches hbelow.trodden_above
    have hstand := (hb.survives_iff hbelow hlen hnode).mp hsurvives
    obtain ⟨new, s', hrun, hshows⟩ := hs.moveUpGroup_shows hb hg hbelow hlen hstand s
    rw [hbelow.position_eq]
    refine ⟨new, s', hrun, fun node' hnode' => ?_⟩
    rw [hbelow.position_eq] at hnode' ⊢
    rwa [hnode'.unique hnode]

/-- A position has a group if and only if something below the node that stands there is edited. -/
theorem Settled.exists_group {crumbs : List (Crumb N)} {node : N} (hlen : crumbs.length = depth)
    (ht : b.Trodden crumbs) (hr : b.Reaches adapter crumbs node) :
    editsBelow b.zippers (standing b.zippers (Crumb.way crumbs) node) (Crumb.way crumbs) = true ↔
      ∃ g ∈ levelGroups zs (depth + 1),
        Below b g (standing b.zippers (Crumb.way crumbs) node) crumbs := by
  have hspec := levelGroups_spec zs (depth + 1)
  rw [hb.editsBelow_iff ht hr]
  constructor
  · rintro ⟨l, hl⟩
    obtain ⟨z, hz, hway⟩ := hs.exists_at hb (by simp [hlen]) hl
    have hcrumbs := hb.crumbs_eq (hs.trodden z hz) hl hway
    have hdepth : z.depth = depth + 1 := by simp [Zipper.depth, hcrumbs, hlen]
    have hparent : parentId z = some (identity (standing b.zippers (Crumb.way crumbs) node)) := by
      simp [parentId, Zipper.parent?, hcrumbs]
    have hzmem : z ∈ zs.filter (·.depth == depth + 1) := by simp [hz, hdepth]
    obtain ⟨g, hg, hid⟩ := List.mem_map.mp (hspec.covers z hzmem _ hparent)
    have hzg : z ∈ g.2 := by
      rw [hspec.group_eq g hg]
      exact List.mem_filter.mpr ⟨hzmem, by simp [hparent, hid]⟩
    obtain ⟨base, above, hbelow, -⟩ := hs.below hb hg
    obtain ⟨m, hm⟩ := hbelow.crumbs_eq z hzg
    rw [hcrumbs, List.cons.injEq, Crumb.mk.injEq] at hm
    obtain ⟨⟨hbase, -⟩, habove⟩ := hm
    exact ⟨g, hg, hbase ▸ habove ▸ hbelow⟩
  · rintro ⟨g, -, hbelow⟩
    exact hbelow.trodden

/-- A position with edits below is left with the one replacement that its group became. -/
theorem Settled.round_merged {moved : List (Zipper N)} (hmoved : MovedUp adapter b depth zs moved)
    {crumbs : List (Crumb N)} {node : N} (hlen : crumbs.length = depth) (ht : b.Trodden crumbs)
    (hr : b.Reaches adapter crumbs node)
    (hbelow : editsBelow b.zippers (standing b.zippers (Crumb.way crumbs) node)
      (Crumb.way crumbs) = true) :
    ∃ new, carried (b.unabsorbed depth (levelGroups zs (depth + 1)) ++ moved) (Crumb.way crumbs)
        .replace = [new] ∧
      (edited adapter b.zippers (height b.zippers - depth) (Crumb.way crumbs) node).Shows adapter
        new := by
  obtain ⟨g, hg, hbelow⟩ := (hs.exists_group hb hlen ht hr).mp hbelow
  have hsurvives := (hb.survives_iff hbelow hlen hr).mpr rfl
  have hpair : ((levelGroups zs (depth + 1)).filter
      (survives (b.zippers.filter (·.depth < depth + 1)))).Pairwise
      fun g h => Crumb.way (position g.2) ≠ Crumb.way (position h.2) := by
    refine ((hb.groups_apart _ _).imp_of_mem fun {g h} hg hh hapart hway => ?_).filter _
    obtain ⟨base, above, hbelow, -⟩ := hs.below hb hg
    obtain ⟨other, beyond, hbelow', -⟩ := hs.below hb hh
    rw [hbelow.position_eq, hbelow'.position_eq] at hway
    obtain rfl := hb.crumbs_eq hbelow.trodden_above hbelow'.trodden_above hway
    exact hapart base other above hbelow hbelow'
  obtain ⟨new, hnew, hshows⟩ := carried_moved_eq hmoved hpair
    (List.mem_filter.mpr ⟨hg, hsurvives⟩) (congrArg Crumb.way hbelow.position_eq)
  rw [hbelow.position_eq] at hshows
  refine ⟨new, ?_, hshows node hr⟩
  rw [carried_append, hnew, carried_eq_nil, List.nil_append]
  -- what the batch puts here itself is absorbed
  intro z hz hway hedit
  obtain ⟨hz, -, hkept⟩ := mem_unabsorbed.mp hz
  have hcrumbs := hb.crumbs_eq_of_way hz ht hway
  have hnode : standing b.zippers (Crumb.way crumbs) node = z.node := by
    rw [← hcrumbs]
    exact hb.standing_replaced hz hedit node
  have habsorbs := (hb.absorbs_iff hbelow hz).mpr ⟨hedit, hcrumbs, hnode.symm⟩
  simp [hkept g hg] at habsorbs

/-- A position without edits below is left as it was. -/
theorem Settled.round_unmerged {moved : List (Zipper N)} (hmoved : MovedUp adapter b depth zs moved)
    {crumbs : List (Crumb N)} {node : N} (hlen : crumbs.length = depth) (ht : b.Trodden crumbs)
    (hr : b.Reaches adapter crumbs node)
    (hnot : editsBelow b.zippers (standing b.zippers (Crumb.way crumbs) node)
      (Crumb.way crumbs) = false) :
    carried (b.unabsorbed depth (levelGroups zs (depth + 1)) ++ moved) (Crumb.way crumbs)
      .replace = carried b.zippers (Crumb.way crumbs) .replace := by
  have hnone : ∀ g ∈ levelGroups zs (depth + 1),
      ¬Below b g (standing b.zippers (Crumb.way crumbs) node) crumbs := by
    intro g hg hbelow
    rw [(hs.exists_group hb hlen ht hr).mpr ⟨g, hg, hbelow⟩] at hnot
    exact Bool.noConfusion hnot
  rw [carried_append, carried_moved_eq_nil hmoved, List.append_nil, carried_unabsorbed]
  · simp [hlen]
  · intro z hz hway hedit g hg
    obtain ⟨base, above, hbelow, -⟩ := hs.below hb hg
    have hcrumbs := hb.crumbs_eq_of_way hz ht hway
    rw [Bool.eq_false_iff, ne_eq, hb.absorbs_iff hbelow hz]
    rintro ⟨-, habove, rfl⟩
    refine hnone g hg ?_
    rw [← hcrumbs, hb.standing_replaced hz hedit, habove]
    exact hbelow
  · intro g hg hway
    obtain ⟨hg, hsurvives⟩ := List.mem_filter.mp hg
    obtain ⟨base, above, hbelow, hlen'⟩ := hs.below hb hg
    rw [hbelow.position_eq] at hway
    obtain rfl := hb.crumbs_eq hbelow.trodden_above ht hway
    have hstand := (hb.survives_iff hbelow hlen' hr).mp hsurvives
    exact hnone g hg (hstand ▸ hbelow)

/-- The moved groups are at trodden positions of the depth. -/
theorem Settled.place_moved {moved : List (Zipper N)} (hmoved : MovedUp adapter b depth zs moved)
    {z : Zipper N} (hz : z ∈ moved) : z.depth = depth ∧ b.Trodden z.crumbs := by
  obtain ⟨-, g, hg, hcrumbs⟩ := mem_moved hmoved hz
  obtain ⟨base, above, hbelow, hlen⟩ := hs.below hb (List.mem_filter.mp hg).1
  rw [Zipper.depth, hcrumbs, hbelow.position_eq]
  exact ⟨hlen, hbelow.trodden_above⟩

/-- A round does not touch what is further up. -/
theorem Settled.round_above {moved : List (Zipper N)}
    (hmoved : MovedUp adapter b depth zs moved) :
    (b.unabsorbed depth (levelGroups zs (depth + 1)) ++ moved).filter (·.depth < depth) =
      b.zippers.filter (·.depth < depth) := by
  have hnone : moved.filter (·.depth < depth) = [] :=
    List.filter_eq_nil_iff.mpr fun z hz => by simp [(hs.place_moved hb hmoved hz).1]
  rw [List.filter_append, hnone, List.append_nil, unabsorbed, List.filter_filter,
    List.filter_filter]
  refine List.filter_congr fun z hz => ?_
  by_cases hdepth : z.depth < depth
  · have hkept : ∀ g ∈ levelGroups zs (depth + 1), absorbs g z = false := by
      intro g hg
      obtain ⟨base, above, hbelow, hlen⟩ := hs.below hb hg
      rw [Bool.eq_false_iff, ne_eq, hb.absorbs_iff hbelow hz]
      rintro ⟨-, rfl, -⟩
      rw [Zipper.depth] at hdepth
      omega
    have hlt : z.depth < depth + 1 := Nat.lt_succ_of_lt hdepth
    simpa [hdepth, hlt] using hkept
  · simp [hdepth]

omit hb in
/-- A round leaves no more edits than there were. -/
theorem Settled.length_round_le {moved : List (Zipper N)}
    (hmoved : MovedUp adapter b depth zs moved) :
    (b.unabsorbed depth (levelGroups zs (depth + 1)) ++ moved).length ≤ b.zippers.length := by
  have hupper : (b.unabsorbed depth (levelGroups zs (depth + 1))).length ≤
      (zs.filter (·.depth < depth + 1)).length := by
    rw [hs.above]
    exact List.length_filter_le _ _
  have hlower : moved.length ≤ (zs.filter (·.depth == depth + 1)).length := by
    rw [← hmoved.length_eq]
    exact Nat.le_trans (List.length_filter_le _ _) (levelGroups_spec zs (depth + 1)).length_le
  have hsum := zs.length_eq_length_filter_add (·.depth < depth + 1)
  have hsame : zs.filter (fun z => !decide (z.depth < depth + 1)) =
      zs.filter (·.depth == depth + 1) := by
    refine List.filter_congr fun z hz => ?_
    have hle := hs.depth_le z hz
    rw [Bool.eq_iff_iff]
    simp only [Bool.not_eq_true', decide_eq_false_iff_not, beq_iff_eq]
    omega
  rw [hsame] at hsum
  have hle := hs.length_le
  rw [List.length_append]
  omega

/-- **One round**: what was settled down to a depth is then settled down to one less. -/
theorem Settled.round (s : σ) :
    ∃ zs' s', (Batch.round adapter (depth + 1) zs).runWith s = (.ok zs', s') ∧
      Settled adapter b depth zs' := by
  obtain ⟨moved, s', hrun, hmoved⟩ := hs.settle hb s
  refine ⟨b.unabsorbed depth (levelGroups zs (depth + 1)) ++ moved, s', ?_, ?_⟩
  · rw [Batch.round, hs.partition]
    exact Attempt.runWith_bind_ok hrun _
  constructor
  case depth_le =>
    intro z hz
    rcases List.mem_append.mp hz with hz | hz
    · exact (mem_unabsorbed.mp hz).2.1
    · exact Nat.le_of_eq (hs.place_moved hb hmoved hz).1
  case above => exact hs.round_above hb hmoved
  case trodden =>
    intro z hz
    rcases List.mem_append.mp hz with hz | hz
    · exact ⟨z, (mem_unabsorbed.mp hz).1, List.suffix_rfl⟩
    · exact (hs.place_moved hb hmoved hz).2
  case length_le => exact hs.length_round_le hmoved
  case others =>
    intro way edit hlen hedit
    have hnone : carried moved way edit = [] :=
      carried_eq_nil fun z hz _ hz' => hedit (hz' ▸ (mem_moved hmoved hz).1)
    rw [carried_append, hnone, List.append_nil, carried_unabsorbed (Nat.le_of_eq hlen)]
    · intro z hz _ hz' g hg
      obtain ⟨base, above, hbelow, -⟩ := hs.below hb hg
      rw [Bool.eq_false_iff, ne_eq, hb.absorbs_iff hbelow hz]
      exact fun h => hedit (hz' ▸ h.1)
  case merged =>
    intro crumbs node hlen ht hr hbelow
    exact hs.round_merged hb hmoved hlen ht hr hbelow
  case unmerged =>
    intro crumbs node hlen ht hr hnot
    exact hs.round_unmerged hb hmoved hlen ht hr hnot

end Step

/-! ### All rounds -/

omit [Identified N] in
/-- A lone edit moves up in the same way as a group. -/
theorem moveUpGroup_singleton (adapter : Adapter σ N) (z : Zipper N) :
    moveUpGroup adapter [z] = z.moveUp adapter := by
  have horder : inOrder [z] = [z] := rfl
  cases hz : z.crumbs with
  | nil => simp [moveUpGroup, horder, Zipper.moveUp, hz]
  | cons c above =>
    have hsplice : spliceAll (adapter.children c.node) (fun _ => 0) [z] =
        (adapter.children c.node).splice c.location 0 z.edit z.node := by
      simp only [spliceAll, Zipper.location?, hz, List.head?_cons, Option.map_some]
      exact bind_pure _
    simp only [moveUpGroup, horder, hz, Zipper.moveUp, Crumb.graft, bind_assoc]
    rw [hsplice]

/-- A round of a lone edit moves it up. -/
theorem round_singleton (adapter : Adapter σ N) {z : Zipper N} (hz : z.depth = depth + 1) :
    Batch.round adapter (depth + 1) [z] = z.moveUp adapter >>= fun moved => pure [moved] := by
  obtain ⟨c, above, hcrumbs⟩ := List.exists_cons_of_length_eq_add_one hz
  have hpart : [z].partition (·.depth == depth + 1) = ([z], []) := by
    simp [List.partition_eq_filter_filter, hz]
  have hgroup : groupByParent [z] = [(identity c.node, [z])] := by
    simp [groupByParent, Zipper.parent?, hcrumbs, addToGroup]
  rw [Batch.round, hpart]
  simp only [hgroup, settle_singleton, moveUpGroup_singleton, bind_assoc, pure_bind,
    List.nil_append]

omit [Identified N] in
/-- Taking an edit to the root is moving it up first. -/
theorem toRoot_moveUp (adapter : Adapter σ N) {z : Zipper N} (hz : z.crumbs ≠ []) :
    z.toRoot adapter = z.moveUp adapter >>= (·.toRoot adapter) := by
  cases hcrumbs : z.crumbs with
  | nil => exact absurd hcrumbs hz
  | cons c above =>
    simp only [Zipper.toRoot, Zipper.moveUp, hcrumbs, bind_assoc, pure_bind]
    refine congrArg _ (funext fun parent => ?_)
    cases above with
    | nil => simp [Crumb.climb]
    | cons d beyond => simp [Crumb.climb]

omit [Identified N] in
theorem exists_depth_eq_height (hne : zs ≠ []) : ∃ z ∈ zs, z.depth = height zs := by
  induction zs with
  | nil => exact absurd rfl hne
  | cons z zs ih =>
    rw [height, List.foldr_cons, ← height]
    rcases Nat.le_total (height zs) z.depth with hle | hle
    · exact ⟨z, List.mem_cons_self, (Nat.max_eq_left hle).symm⟩
    · by_cases hnil : zs = []
      · subst hnil
        exact ⟨z, List.mem_cons_self, (Nat.max_eq_left (Nat.zero_le _)).symm⟩
      · obtain ⟨y, hy, hdepth⟩ := ih hnil
        exact ⟨y, List.mem_cons_of_mem _ hy, by rw [hdepth, Nat.max_eq_right hle]⟩

omit [Identified N] in
/-- On every level down to the deepest edit some position is trodden. -/
theorem exists_trodden (hne : b.zippers ≠ []) (hle : depth ≤ height b.zippers) :
    ∃ crumbs, crumbs.length = depth ∧ b.Trodden crumbs := by
  obtain ⟨z, hz, hdepth⟩ := exists_depth_eq_height hne
  refine ⟨z.crumbs.drop (height b.zippers - depth), ?_, z, hz, List.drop_suffix _ _⟩
  rw [Zipper.depth] at hdepth
  rw [List.length_drop]
  omega

omit [Identified N] in
theorem eq_singleton {z : Zipper N} (hz : z ∈ zs) (hone : zs.length ≤ 1) : zs = [z] := by
  match zs, hone with
  | [y], _ => rw [List.mem_singleton.mp hz]

theorem Edit.eq_delete {edit : Edit} (hreplace : edit ≠ .replace)
    (hinserts : edit.inserts = false) : edit = .delete := by
  cases edit <;> simp_all [Edit.inserts]

/-- What holds of states at depths is **handed down** if every round brings it one level up. -/
def HandsDown (adapter : Adapter σ N) (b : Batch N) (P : Nat → σ → Prop) : Prop :=
  ∀ ⦃depth zs s zs' s'⦄, Settled adapter b (depth + 1) zs →
    (Batch.round adapter (depth + 1) zs).runWith s = (.ok zs', s') → P (depth + 1) s → P depth s'

section Run

variable {P : Nat → σ → Prop} (hb : b.Coherent adapter)

include hb

/-- Of the edits that are left some is at the depth. -/
theorem Settled.exists_depth (hs : Settled adapter b depth zs) (hne : b.zippers ≠ [])
    (hle : depth ≤ height b.zippers) : ∃ z ∈ zs, z.depth = depth := by
  obtain ⟨crumbs, hlen, ht⟩ := exists_trodden hne hle
  obtain ⟨z, hz, hway⟩ := hs.exists_at hb hlen ht
  refine ⟨z, hz, ?_⟩
  rw [← hlen, ← Crumb.length_way, ← hway, Zipper.length_way]

/-- The root is left with one edit at most. -/
theorem Settled.length_le_one (hs : Settled adapter b 0 zs) : zs.length ≤ 1 := by
  have hcrumbs : ∀ z ∈ zs, z.crumbs = [] := fun z hz =>
    List.eq_nil_of_length_eq_zero (Nat.le_zero.mp (hs.depth_le z hz))
  have hway : ∀ z ∈ zs, z.way = [] := fun z hz => by rw [Zipper.way, hcrumbs z hz, Crumb.way_nil]
  by_cases hall : ∀ z ∈ zs, z.edit = .replace
  · cases zs with
    | nil => exact Nat.zero_le _
    | cons z zs =>
      have ht : b.Trodden [] := hcrumbs z List.mem_cons_self ▸ hs.trodden z List.mem_cons_self
      have hle := (hs.shows hb rfl ht .root).1
      rw [carried, List.length_map, List.filter_eq_self.mpr] at hle
      · exact hle
      · intro y hy
        simp [hway y hy, hall y hy]
  -- any other edit of the root is one of the batch, so it deletes the root and is the only one
  · push Not at hall
    obtain ⟨z, hz, hedit⟩ := hall
    have hmem : z.node ∈ carried b.zippers [] z.edit := by
      rw [← hs.others [] z.edit rfl hedit]
      exact mem_carried.mpr ⟨z, hz, hway z hz, rfl, rfl⟩
    obtain ⟨y, hy, hyway, hyedit, -⟩ := mem_carried.mp hmem
    have hycrumbs : y.crumbs = [] :=
      hb.crumbs_eq_of_way hy (hcrumbs z hz ▸ hs.trodden z hz) hyway
    have hydelete : y.edit = .delete :=
      Edit.eq_delete (hyedit ▸ hedit) (hb.rootAlone y hy hycrumbs)
    have hlen := hs.length_le
    rwa [hb.rootDeleted y hy hycrumbs hydelete] at hlen

/-- A lone edit that is settled goes to the root as all edits at once say. -/
theorem Settled.toRoot (hP : HandsDown adapter b P) {z : Zipper N}
    (hs : Settled adapter b depth [z]) (hle : depth ≤ height b.zippers) {s : σ} (hp : P depth s) :
    ∃ result s', (z.toRoot adapter).runWith s = (.ok result, s') ∧
      Option.Rel (Sketch.Shows adapter) (b.simultaneous adapter) result ∧ P 0 s' := by
  have hne : b.zippers ≠ [] := by
    obtain ⟨y, hy, -⟩ := hs.trodden z List.mem_cons_self
    exact List.ne_nil_of_mem hy
  induction depth generalizing z s with
  | zero =>
    have hcrumbs : z.crumbs = [] :=
      List.eq_nil_of_length_eq_zero (Nat.le_zero.mp (hs.depth_le z List.mem_cons_self))
    have hway : z.way = [] := by rw [Zipper.way, hcrumbs, Crumb.way_nil]
    have ht : b.Trodden [] := hcrumbs ▸ hs.trodden z List.mem_cons_self
    have hcarried : ∀ edit, edit ≠ .replace →
        carried b.zippers [] edit = if z.edit = edit then [z.node] else [] := by
      intro edit hedit
      rw [← hs.others [] edit rfl hedit]
      by_cases h : z.edit = edit <;> simp [carried, hway, h]
    have hbeside : ∀ edit, edit.inserts = true → z.edit ≠ edit := by
      rintro edit hinserts rfl
      have hmem : z.node ∈ carried b.zippers [] z.edit := by
        rw [hcarried z.edit (by rintro h; simp [h, Edit.inserts] at hinserts)]
        simp
      obtain ⟨y, hy, hyway, hyedit, -⟩ := mem_carried.mp hmem
      have hycrumbs : y.crumbs = [] := hb.crumbs_eq_of_way hy ht hyway
      simp [hb.rootAlone y hy hycrumbs, ← hyedit] at hinserts
    rw [Zipper.toRoot, hcrumbs, simultaneous, hcarried .delete (by simp)]
    cases hedit : z.edit with
    | replace =>
      have hshows := (hs.shows hb rfl ht .root).2
      have hnode : carried [z] [] .replace = [z.node] := by simp [carried, hway, hedit]
      rw [Crumb.way_nil, hnode] at hshows
      exact ⟨some z.node, s, rfl, .some hshows, hp⟩
    | delete => exact ⟨none, s, rfl, .none, hp⟩
    | insertBefore => exact absurd hedit (hbeside _ rfl)
    | insertAfter => exact absurd hedit (hbeside _ rfl)
  | succ depth ih =>
    obtain ⟨y, hy, hz⟩ := hs.exists_depth hb hne hle
    obtain rfl := List.mem_singleton.mp hy
    have hup : y.crumbs ≠ [] := List.ne_nil_of_length_eq_add_one hz
    obtain ⟨zs', t, hround, hs'⟩ := hs.round hb s
    have hp' := hP hs hround hp
    rw [round_singleton adapter hz] at hround
    obtain ⟨moved, u, hrun, hdone⟩ := Attempt.exists_of_bind_ok hround
    rw [Attempt.runWith_pure, Prod.mk.injEq, Except.ok.injEq] at hdone
    obtain ⟨rfl, rfl⟩ := hdone
    rw [toRoot_moveUp adapter hup, Attempt.runWith_bind_ok hrun]
    exact ih hs' (Nat.le_of_succ_le hle) hp'

/-- **All rounds**: they leave one edit, and it is settled down to where they stopped. -/
theorem Settled.reconcile (hP : HandsDown adapter b P) (hs : Settled adapter b depth zs)
    (hne : b.zippers ≠ []) (hle : depth ≤ height b.zippers) {s : σ} (hp : P depth s) :
    ∃ z reached s', (Batch.reconcile adapter depth zs).runWith s = (.ok [z], s') ∧
      reached ≤ height b.zippers ∧ Settled adapter b reached [z] ∧ P reached s' := by
  induction depth generalizing zs s with
  | zero =>
    have hone := hs.length_le_one hb
    obtain ⟨z, hz, -⟩ := hs.exists_depth hb hne hle
    obtain rfl : zs = [z] := eq_singleton hz hone
    exact ⟨z, 0, s, rfl, hle, hs, hp⟩
  | succ depth ih =>
    rw [Batch.reconcile]
    by_cases hone : zs.length ≤ 1
    · obtain ⟨z, hz, -⟩ := hs.exists_depth hb hne hle
      obtain rfl : zs = [z] := eq_singleton hz hone
      exact ⟨z, depth + 1, s, rfl, hle, hs, hp⟩
    · obtain ⟨zs', t, hround, hs'⟩ := hs.round hb s
      obtain ⟨z, reached, s', hrun, hreached⟩ :=
        ih hs' (Nat.le_of_succ_le hle) (hP hs hround hp)
      refine ⟨z, reached, s', ?_, hreached⟩
      rw [if_neg hone, Attempt.runWith_bind_ok hround]
      exact hrun

/-- The rounds together, and the way of the last edit to the root. -/
theorem Coherent.toRoot_handsDown (hP : HandsDown adapter b P) (hne : b.zippers ≠ []) {s : σ}
    (hp : P (height b.zippers) s) :
    ∃ result s', (b.toRoot adapter).runWith s = (.ok result, s') ∧
      Option.Rel (Sketch.Shows adapter) (b.simultaneous adapter) result ∧ P 0 s' := by
  obtain ⟨z, reached, t, hrun, hle, hs, hp⟩ :=
    (settled_height adapter b).reconcile hb hP hne (Nat.le_refl _) hp
  obtain ⟨result, s', hroot, hrel⟩ := hs.toRoot hb hP hle hp
  refine ⟨result, s', ?_, hrel⟩
  rw [Batch.toRoot, Attempt.runWith_bind_ok hrun]
  exact hroot

theorem Coherent.toRoot_of_ne_nil (hne : b.zippers ≠ []) (s : σ) :
    ∃ result s', (b.toRoot adapter).runWith s = (.ok result, s') ∧
      Option.Rel (Sketch.Shows adapter) (b.simultaneous adapter) result := by
  have hP : HandsDown adapter b fun _ _ => True := fun _ _ _ _ _ _ _ _ => trivial
  obtain ⟨result, s', hrun, hrel, -⟩ := hb.toRoot_handsDown hP hne (s := s) trivial
  exact ⟨result, s', hrun, hrel⟩

end Run

end Batch

end Arborist
