import Arborist.Proofs.InPlace

/-!
# Where nodes come to lie

Edits that put nodes beside a child or remove one move the children behind it. `Batch.landing` says
where the node of a position comes to lie, counting what stands in front of it on every level.

The edits of a batch are **unnested** if none of them is made below a position that is replaced or
deleted. What such a batch leaves of the tree, and what it adds to it, is told by `Conserved`:

* a node with no edit below it is the node that it was;
* every other node that is neither removed itself nor below a removed one is rebuilt;
* whatever else there is comes from the edits.
-/

namespace Arborist

variable {σ N : Type}

/-! ### Lists one behind the other -/

section Blocks

variable {M L : Type} {f : Nat → M → List L} {width : Nat → Nat}

/-- An element of one block, counted from the first block on. -/
theorem getElem?_flatten_mapIdx (hwidth : ∀ i m, (f i m).length = width i) {list : List M} {i : Nat}
    {m : M} (hm : list[i]? = some m) {k : Nat} (hk : k < width i) :
    (list.mapIdx f).flatten[∑ j ∈ Finset.range i, width j + k]? = (f i m)[k]? := by
  induction list generalizing f width i with
  | nil => cases hm
  | cons first list ih =>
    rw [List.mapIdx_cons, List.flatten_cons]
    cases i with
    | zero =>
      obtain rfl : first = m := Option.some.inj hm
      rw [Finset.sum_range_zero, Nat.zero_add, List.getElem?_append_left (by rwa [hwidth])]
    | succ i =>
      rw [Finset.sum_range_succ', List.getElem?_append_right (by rw [hwidth]; omega), hwidth,
        show ∑ j ∈ Finset.range i, width (j + 1) + width 0 + k - width 0 =
          ∑ j ∈ Finset.range i, width (j + 1) + k by omega]
      exact ih (fun i m => hwidth (i + 1) m) hm hk

/-- Every element belongs to a block. -/
theorem exists_of_getElem?_flatten_mapIdx (hwidth : ∀ i m, (f i m).length = width i)
    {list : List M} {place : Nat} {x : L} (hx : (list.mapIdx f).flatten[place]? = some x) :
    ∃ i m k, list[i]? = some m ∧ place = ∑ j ∈ Finset.range i, width j + k ∧
      (f i m)[k]? = some x := by
  induction list generalizing f width place with
  | nil => cases hx
  | cons first list ih =>
    rw [List.mapIdx_cons, List.flatten_cons] at hx
    by_cases hplace : place < width 0
    · rw [List.getElem?_append_left (by rwa [hwidth])] at hx
      exact ⟨0, first, place, rfl, by simp, hx⟩
    · rw [List.getElem?_append_right (by rw [hwidth]; omega), hwidth] at hx
      obtain ⟨i, m, k, hm, hk, hx⟩ := ih (fun i m => hwidth (i + 1) m) hx
      refine ⟨i + 1, m, k, hm, ?_, hx⟩
      rw [Finset.sum_range_succ']
      omega

end Blocks

namespace Children

variable {M L : Type} {f : Location → M → List L} {width : Location → Nat}

/-- What is spread from a child lies behind what is spread from the children before it. -/
theorem at?_spread (hwidth : ∀ l m, (f l m).length = width l) {c : Children M} {l : Location}
    {m : M} (hm : c.at? l = some m) {k : Nat} (hk : k < width l) :
    (c.spread f).at? ⟨l.role, ∑ j ∈ Finset.range l.index, width ⟨l.role, j⟩ + k⟩ =
      (f l m)[k]? := by
  obtain ⟨list, hlist, hm⟩ := Option.bind_eq_some_iff.mp hm
  rw [at?, get?_spread, hlist]
  exact getElem?_flatten_mapIdx (f := fun i m => f ⟨l.role, i⟩ m) (fun i m => hwidth _ m) hm hk

/-- All that is spread comes from some child. -/
theorem exists_of_at?_spread (hwidth : ∀ l m, (f l m).length = width l) {c : Children M}
    {r : Role} {place : Nat} {x : L} (hx : (c.spread f).at? ⟨r, place⟩ = some x) :
    ∃ i m k, c.at? ⟨r, i⟩ = some m ∧
      place = ∑ j ∈ Finset.range i, width ⟨r, j⟩ + k ∧ (f ⟨r, i⟩ m)[k]? = some x := by
  rw [at?, get?_spread] at hx
  cases hlist : c.get? r with
  | none =>
    rw [hlist] at hx
    cases hx
  | some list =>
    rw [hlist] at hx
    obtain ⟨i, m, k, hm, hplace, hx⟩ :=
      exists_of_getElem?_flatten_mapIdx (f := fun i m => f ⟨r, i⟩ m) (fun i m => hwidth _ m) hx
    exact ⟨i, m, k, by rw [at?, hlist]; exact hm, hplace, hx⟩

end Children

namespace Batch

variable [Identified N] {adapter : Adapter σ N} {b : Batch N}

/-! ### Places -/

/-- How many nodes stand in place of a child once the edits of its position are made. -/
def room (zs : List (Zipper N)) (way : Way N) : Nat :=
  (carried zs way .insertBefore).length + (if (carried zs way .delete).isEmpty then 1 else 0) +
    (carried zs way .insertAfter).length

/-- Where a child comes to lie below its parent: behind all that stands in place of the children
before it, and behind the nodes put in front of it. -/
def landed (zs : List (Zipper N)) (above : Way N) (parent : Identity N) (l : Location) :
    Location where
  role := l.role
  index := ∑ j ∈ Finset.range l.index, room zs ((parent, ⟨l.role, j⟩) :: above) +
    (carried zs ((parent, l) :: above) .insertBefore).length

/-- The way down to where the node of a position **comes to lie**. -/
def landing (zs : List (Zipper N)) : Way N → List Location
  | [] => []
  | (parent, l) :: above => landing zs above ++ [landed zs above parent l]

theorem length_surrounded (zs : List (Zipper N)) (way : Way N) (child : Sketch N) :
    (surrounded zs way child).length = room zs way := by
  rw [surrounded, room, List.length_append, List.length_append, List.length_map, List.length_map]
  split <;> rfl

theorem length_landing (zs : List (Zipper N)) (way : Way N) :
    (landing zs way).length = way.length := by
  induction way with
  | nil => rfl
  | cons step above ih =>
    rw [landing, List.length_append, ih, List.length_singleton, List.length_cons]

/-- A child that is not deleted stands behind the nodes put in front of it. -/
theorem getElem?_surrounded {zs : List (Zipper N)} {way : Way N}
    (hkept : carried zs way .delete = []) (child : Sketch N) :
    (surrounded zs way child)[(carried zs way .insertBefore).length]? = some child := by
  simp [surrounded, hkept]

/-- In place of a child stand the child and nodes of edits. -/
theorem surrounded_cases {zs : List (Zipper N)} {way : Way N} {child sketch : Sketch N} {k : Nat}
    (h : (surrounded zs way child)[k]? = some sketch) :
    (k = (carried zs way .insertBefore).length ∧ carried zs way .delete = [] ∧ sketch = child) ∨
      ∃ z ∈ zs, z.edit.inserts = true ∧ sketch = .keep z.node := by
  have hinserted : ∀ edit (i : Nat), edit.inserts = true →
      ((carried zs way edit).map Sketch.keep)[i]? = some sketch →
      ∃ z ∈ zs, z.edit.inserts = true ∧ sketch = .keep z.node := by
    intro edit i hedit hi
    obtain ⟨n, hn, rfl⟩ := List.mem_map.mp (List.mem_of_getElem? hi)
    obtain ⟨z, hz, -, rfl, rfl⟩ := mem_carried.mp hn
    exact ⟨z, hz, hedit, rfl⟩
  by_cases hkept : (carried zs way .delete).isEmpty = true
  · rw [surrounded, if_pos hkept, List.append_assoc, List.getElem?_append, List.length_map] at h
    split at h
    · exact .inr (hinserted .insertBefore _ rfl h)
    · cases hplace : k - (carried zs way .insertBefore).length with
      | zero =>
        rw [hplace] at h
        exact .inl ⟨by omega, List.isEmpty_iff.mp hkept, (Option.some.inj h).symm⟩
      | succ i =>
        rw [hplace] at h
        exact .inr (hinserted .insertAfter i rfl h)
  · rw [surrounded, if_neg hkept, List.append_nil, List.getElem?_append] at h
    split at h
    · exact .inr (hinserted .insertBefore _ rfl h)
    · exact .inr (hinserted .insertAfter _ rfl h)

/-- Where nothing is edited nothing moves. -/
theorem landed_of_untouched {zs : List (Zipper N)} {above : Way N} {parent : Identity N}
    (hnone : ∀ l edit, carried zs ((parent, l) :: above) edit = []) (l : Location) :
    landed zs above parent l = l := by
  simp [landed, room, hnone]

/-- There is room for a child that is not deleted. -/
theorem length_lt_room {zs : List (Zipper N)} {way : Way N}
    (hkept : carried zs way .delete = []) :
    (carried zs way .insertBefore).length < room zs way := by
  rw [room, hkept]
  exact Nat.lt_of_lt_of_le (Nat.lt_succ_self _) (Nat.le_add_right _ _)

/-- A child that is not deleted comes to lie before those that stood behind it. -/
theorem landed_index_lt {zs : List (Zipper N)} {above : Way N} {parent : Identity N} {r : Role}
    {i j : Nat} (hkept : carried zs ((parent, ⟨r, i⟩) :: above) .delete = []) (hlt : i < j) :
    (landed zs above parent ⟨r, i⟩).index < (landed zs above parent ⟨r, j⟩).index := by
  have hsum : ∑ k ∈ Finset.range (i + 1), room zs ((parent, ⟨r, k⟩) :: above) ≤
      ∑ k ∈ Finset.range j, room zs ((parent, ⟨r, k⟩) :: above) :=
    Finset.sum_le_sum_of_subset (Finset.range_mono hlt)
  have hroom := length_lt_room hkept
  rw [Finset.sum_range_succ] at hsum
  simp only [landed]
  omega

/-! ### Unnested edits -/

/-- The node at a position **remains**: neither its position nor one above it is replaced or
deleted. -/
def Remains (b : Batch N) (crumbs : List (Crumb N)) : Prop :=
  ∀ z ∈ b.zippers, z.edit.inserts = false → ¬ z.crumbs <:+ crumbs

/-- Some edit is made strictly below a position. -/
def EditedBelow (b : Batch N) (crumbs : List (Crumb N)) : Prop :=
  ∃ z ∈ b.zippers, ∃ c, c :: crumbs <:+ z.crumbs

omit [Identified N] in
theorem Remains.above {c : Crumb N} {crumbs : List (Crumb N)} (h : b.Remains (c :: crumbs)) :
    b.Remains crumbs :=
  fun z hz hedit hsuffix => h z hz hedit (hsuffix.trans (List.suffix_cons _ _))

omit [Identified N] in
/-- The children of a node that remains do so as well, unless they are edited themselves. -/
theorem Remains.child {c : Crumb N} {crumbs : List (Crumb N)} (h : b.Remains crumbs)
    (hnone : ∀ z ∈ b.zippers, z.edit.inserts = false → z.crumbs ≠ c :: crumbs) :
    b.Remains (c :: crumbs) := by
  intro z hz hedit hsuffix
  rcases List.suffix_cons_iff.mp hsuffix with hhere | habove
  · exact hnone z hz hedit hhere
  · exact h z hz hedit habove

/-- The edits of a batch are **unnested**: they are made at positions of a tree in which no node is
at two positions, a position is replaced or deleted at most once, no edit is made below such a
position, and none at the root. The adapter is lawful at the nodes that edits are made below, and
gives a new node whenever it rebuilds one of them. Lists of children stay within machine words. -/
structure Unnested (adapter : Adapter σ N) (b : Batch N) : Prop where
  distinct : ∀ xs ys m n, (b.withZippers []).Reaches adapter xs m →
    (b.withZippers []).Reaches adapter ys n → identity m = identity n → xs = ys
  reached : ∀ z ∈ b.zippers, ∃ node, (b.withZippers []).Reaches adapter z.crumbs node
  once : b.zippers.Pairwise fun y z =>
    y.edit.inserts = false → z.edit.inserts = false → y.crumbs ≠ z.crumbs
  clear : ∀ y ∈ b.zippers, y.edit.inserts = false → ∀ z ∈ b.zippers, ∀ c,
    ¬ c :: y.crumbs <:+ z.crumbs
  offRoot : ∀ z ∈ b.zippers, z.crumbs ≠ []
  lawful : ∀ z ∈ b.zippers, ∀ c ∈ z.crumbs, adapter.LawfulAt c.node
  renews : ∀ z ∈ b.zippers, ∀ c ∈ z.crumbs, ∀ children new,
    adapter.Rebuilds c.node children new → identity new ≠ identity c.node
  fits : ∀ z ∈ b.zippers, ∀ c ∈ z.crumbs, ∀ r list, (adapter.children c.node).get? r = some list →
    list.length + b.zippers.length < 9223372036854775808

/-- `new` is the tree after the edits, which **conserves** what is not on their ways. -/
structure Conserved (adapter : Adapter σ N) (b : Batch N) (new : N) : Prop where
  /-- A node that remains and has no edit below it is there as it was. -/
  kept : ∀ crumbs node, (b.withZippers []).Reaches adapter crumbs node → b.Remains crumbs →
    ¬ b.EditedBelow crumbs → adapter.follow new (landing b.zippers (Crumb.way crumbs)) = some node
  /-- A node that remains and has edits below it is there as a rebuilt copy. -/
  rebuilt : ∀ crumbs node, (b.withZippers []).Reaches adapter crumbs node → b.Remains crumbs →
    b.EditedBelow crumbs → ∃ made c,
      adapter.follow new (landing b.zippers (Crumb.way crumbs)) = some made ∧
        adapter.Rebuilds node c made ∧ identity made ≠ identity node
  /-- Nodes that remain come to lie apart. -/
  apart : ∀ xs ys m n, (b.withZippers []).Reaches adapter xs m →
    (b.withZippers []).Reaches adapter ys n → b.Remains xs → b.Remains ys →
    landing b.zippers (Crumb.way xs) = landing b.zippers (Crumb.way ys) → xs = ys
  /-- All other nodes are nodes of edits, or below such. -/
  others : ∀ path made, adapter.follow new path = some made →
    (∃ crumbs node, (b.withZippers []).Reaches adapter crumbs node ∧ b.Remains crumbs ∧
      path = landing b.zippers (Crumb.way crumbs)) ∨
    ∃ z ∈ b.zippers, z.edit ≠ .delete ∧ ∃ front rest, path = front ++ rest ∧
      adapter.follow new front = some z.node

namespace Unnested

variable (hb : b.Unnested adapter)

include hb

/-- **Unnested edits are coherent.** -/
theorem coherent : b.Coherent adapter where
  reached z hz := by
    obtain ⟨node, hnode⟩ := hb.reached z hz
    exact ⟨node, hnode.of_tree⟩
  once := by
    refine hb.once.imp_of_mem fun {y z} hy hz hne hyedit hzedit hway => hne hyedit hzedit ?_
    obtain ⟨m, hm⟩ := hb.reached y hy
    obtain ⟨n, hn⟩ := hb.reached z hz
    exact hm.crumbs_eq hn (Crumb.path_eq_of_way hway)
  fresh z hz hedit y hy c hc := absurd hc (hb.clear z hz (by rw [hedit]; rfl) y hy c)
  rootAlone z hz hroot := absurd hroot (hb.offRoot z hz)
  rootDeleted z hz hroot := absurd hroot (hb.offRoot z hz)
  sided z hz hedit x hx _ _ c _ hc := absurd hc (hb.clear z hz (by rw [hedit]; rfl) x hx c)
  lawful := hb.lawful
  fits := hb.fits
  apart y hy z hz c d above beyond hc hd _ hid := by
    obtain ⟨m, hm⟩ := hb.reached y hy
    obtain ⟨n, hn⟩ := hb.reached z hz
    obtain ⟨m', hm'⟩ := hm.of_suffix hc
    obtain ⟨n', hn'⟩ := hn.of_suffix hd
    obtain rfl := hb.distinct _ _ _ _ hm'.tail_of_tree.1 hn'.tail_of_tree.1 hid
    exact ⟨hm'.tail_of_tree.1.unique hn'.tail_of_tree.1, rfl⟩

section Position

variable {crumbs : List (Crumb N)} {node : N} (hat : (b.withZippers []).Reaches adapter crumbs node)

include hat

/-- An edit whose way leads to a position is made there. -/
theorem crumbs_eq_of_way {z : Zipper N} (hz : z ∈ b.zippers) (hway : z.way = Crumb.way crumbs) :
    z.crumbs = crumbs := by
  obtain ⟨m, hm⟩ := hb.reached z hz
  exact hm.crumbs_eq hat (Crumb.path_eq_of_way hway)

/-- A node that remains stands at its position. -/
theorem carried_of_remains (hremains : b.Remains crumbs) {edit : Edit}
    (hedit : edit.inserts = false) : carried b.zippers (Crumb.way crumbs) edit = [] :=
  carried_eq_nil fun z hz hway hz' => hremains z hz (hz' ▸ hedit)
    (hb.crumbs_eq_of_way hat hz hway ▸ List.suffix_rfl)

theorem standing_of_remains (hremains : b.Remains crumbs) :
    standing b.zippers (Crumb.way crumbs) node = node := by
  rw [standing, hb.carried_of_remains hat hremains rfl]
  rfl

/-- Edits below a position run through the node that is there. -/
theorem node_eq {z : Zipper N} (hz : z ∈ b.zippers) {c : Crumb N}
    (hsuffix : c :: crumbs <:+ z.crumbs) : c.node = node := by
  obtain ⟨m, hm⟩ := hb.reached z hz
  obtain ⟨child, hchild⟩ := hm.of_suffix hsuffix
  exact hchild.tail_of_tree.1.unique hat

theorem editsBelow_iff :
    editsBelow b.zippers node (Crumb.way crumbs) = true ↔ b.EditedBelow crumbs := by
  refine ⟨hat.exists_below hb.reached, ?_⟩
  rintro ⟨z, hz, c, hsuffix⟩
  rw [editsBelow, List.any_eq_true]
  refine ⟨z, hz, Way.passes_iff.mpr ⟨c.location, ?_⟩⟩
  rw [← hb.node_eq hat hz hsuffix]
  exact hsuffix.map Crumb.step

/-- Without edits below a position nothing is carried below it. -/
theorem carried_of_not_below (hnone : ¬ b.EditedBelow crumbs) (l : Location) (edit : Edit) :
    carried b.zippers ((identity node, l) :: Crumb.way crumbs) edit = [] :=
  carried_eq_nil fun z hz hway _ => hnone ((hb.editsBelow_iff hat).mp
    (List.any_eq_true.mpr ⟨z, hz, Way.passes_iff.mpr ⟨l, hway ▸ List.suffix_rfl⟩⟩))

/-- Nothing becomes of a node that remains and has no edit below it. -/
theorem edited_of_untouched (hremains : b.Remains crumbs) (hnone : ¬ b.EditedBelow crumbs)
    (levels : Nat) : edited adapter b.zippers levels (Crumb.way crumbs) node = .keep node := by
  have hstanding := hb.standing_of_remains hat hremains
  rw [edited_of_not_below, hstanding]
  rw [hstanding, Bool.eq_false_iff]
  exact fun h => hnone (hat.exists_below hb.reached h)

/-- A position that is replaced shows the node of the edit. -/
theorem edited_of_replaced {z : Zipper N} (hz : z ∈ b.zippers) (hedit : z.edit = .replace)
    (hhere : z.crumbs = crumbs) (levels : Nat) (m : N) :
    edited adapter b.zippers levels (Crumb.way crumbs) m = .keep z.node := by
  have hstanding : standing b.zippers (Crumb.way crumbs) m = z.node := by
    rw [← hhere]
    exact hb.coherent.standing_replaced hz hedit m
  rw [edited_of_not_below, hstanding]
  rw [hstanding, Bool.eq_false_iff]
  intro h
  obtain ⟨y, hy, c, hsuffix⟩ := hat.exists_below hb.reached h
  exact hb.clear z hz (by rw [hedit]; rfl) y hy c (hhere ▸ hsuffix)

/-- **What becomes of a node that remains**: without edits below it the node itself, else a copy of
it that is rebuilt from what its children become. -/
theorem shows_cases (hremains : b.Remains crumbs) {levels : Nat}
    (hlevels : height b.zippers ≤ levels + crumbs.length) {made : N}
    (hshows : (edited adapter b.zippers levels (Crumb.way crumbs) node).Shows adapter made) :
    (¬ b.EditedBelow crumbs ∧ made = node) ∨
    (b.EditedBelow crumbs ∧ ∃ lower c, levels = lower + 1 ∧ adapter.Rebuilds node c made ∧
      ∀ l, Option.Rel (Sketch.Shows adapter)
        (((adapter.children node).spread fun l child =>
          surrounded b.zippers ((identity node, l) :: Crumb.way crumbs)
            (edited adapter b.zippers lower ((identity node, l) :: Crumb.way crumbs) child)).at? l)
        ((adapter.children made).at? l)) := by
  by_cases hbelow : b.EditedBelow crumbs
  · obtain ⟨z, hz, c, hsuffix⟩ := hbelow
    have hdeep := Nat.le_trans hsuffix.length_le (depth_le_height hz)
    rw [List.length_cons] at hdeep
    obtain ⟨lower, rfl⟩ : ∃ lower, levels = lower + 1 := ⟨levels - 1, by omega⟩
    have hedits := (hb.editsBelow_iff hat).mpr ⟨z, hz, c, hsuffix⟩
    simp only [edited, hb.standing_of_remains hat hremains, hedits, if_true] at hshows
    cases hshows with
    | @rebuild _ _ _ c rebuilt shape below =>
      refine .inr ⟨⟨z, hz, _, hsuffix⟩, lower, c, rfl, rebuilt, fun l => ?_⟩
      rw [rebuilt.2]
      exact Children.at?_related shape below l
  · rw [hb.edited_of_untouched hat hremains hbelow] at hshows
    cases hshows
    exact .inl ⟨hbelow, rfl⟩

/-- In place of a child stand the child, if it remains, and nodes of edits. -/
theorem shows_slot (hremains : b.Remains crumbs) {l : Location} {child : N}
    (hchild : (adapter.children node).at? l = some child) {lower k : Nat} {sketch : Sketch N}
    (hsketch : (surrounded b.zippers ((identity node, l) :: Crumb.way crumbs)
      (edited adapter b.zippers lower ((identity node, l) :: Crumb.way crumbs) child))[k]? =
        some sketch)
    {made : N} (hshows : sketch.Shows adapter made) :
    (k = (carried b.zippers ((identity node, l) :: Crumb.way crumbs) .insertBefore).length ∧
        b.Remains (⟨node, l⟩ :: crumbs)) ∨
      ∃ z ∈ b.zippers, z.edit ≠ .delete ∧ made = z.node := by
  have hat' : (b.withZippers []).Reaches adapter (⟨node, l⟩ :: crumbs) child := .down hat hchild
  rcases surrounded_cases hsketch with ⟨hk, hkept, rfl⟩ | ⟨z, hz, hedit, rfl⟩
  · by_cases hreplaced : ∃ z ∈ b.zippers, z.edit = .replace ∧ z.crumbs = ⟨node, l⟩ :: crumbs
    · obtain ⟨z, hz, hedit, hhere⟩ := hreplaced
      rw [show (identity node, l) :: Crumb.way crumbs = Crumb.way (⟨node, l⟩ :: crumbs) from rfl,
        hb.edited_of_replaced hat' hz hedit hhere] at hshows
      cases hshows
      exact .inr ⟨z, hz, by rw [hedit]; decide, rfl⟩
    · refine .inl ⟨hk, hremains.child fun z hz hedit hhere => ?_⟩
      have hdelete : z.edit = .delete :=
        Edit.eq_delete (fun hreplace => hreplaced ⟨z, hz, hreplace, hhere⟩) hedit
      have hmem : z.node ∈ carried b.zippers ((identity node, l) :: Crumb.way crumbs) .delete :=
        mem_carried.mpr ⟨z, hz, congrArg Crumb.way hhere, hdelete, rfl⟩
      rw [hkept] at hmem
      exact absurd hmem List.not_mem_nil
  · cases hshows
    refine .inr ⟨z, hz, fun hdelete => ?_, rfl⟩
    rw [hdelete] at hedit
    cases hedit

end Position

/-- **Nodes that remain come to lie apart.** -/
theorem landing_inj {xs ys : List (Crumb N)} {m n : N}
    (hx : (b.withZippers []).Reaches adapter xs m) (hy : (b.withZippers []).Reaches adapter ys n)
    (hxs : b.Remains xs) (hys : b.Remains ys)
    (hsame : landing b.zippers (Crumb.way xs) = landing b.zippers (Crumb.way ys)) : xs = ys := by
  induction xs generalizing ys m n with
  | nil =>
    have hlength := congrArg List.length hsame
    simp only [length_landing, Crumb.length_way, List.length_nil] at hlength
    exact (List.eq_nil_of_length_eq_zero hlength.symm).symm
  | cons c above ih =>
    cases ys with
    | nil => simp [landing] at hsame
    | cons d beyond =>
      rw [Crumb.way_cons, Crumb.way_cons, landing, landing] at hsame
      obtain ⟨habove, hlanded⟩ := List.append_inj' hsame rfl
      obtain ⟨hx', -⟩ := hx.tail_of_tree
      obtain ⟨hy', -⟩ := hy.tail_of_tree
      obtain rfl := ih hx' hy' hxs.above hys.above habove
      obtain ⟨p, ⟨r, i⟩⟩ := c
      obtain ⟨q, ⟨r', j⟩⟩ := d
      obtain rfl : p = q := hx'.unique hy'
      have hlanded := List.singleton_inj.mp hlanded
      obtain rfl : r = r' := congrArg Location.role hlanded
      have hindex := congrArg Location.index hlanded
      -- of two children that are not deleted the first comes to lie in front
      rcases Nat.lt_trichotomy i j with hlt | rfl | hlt
      · exact absurd hindex
          (Nat.ne_of_lt (landed_index_lt (hb.carried_of_remains hx hxs rfl) hlt))
      · rfl
      · exact absurd hindex.symm
          (Nat.ne_of_lt (landed_index_lt (hb.carried_of_remains hy hys rfl) hlt))

section Result

variable {new : N}
  (hshows : (edited adapter b.zippers (height b.zippers) [] b.root).Shows adapter new)

include hshows

/-- Where a node that remains comes to lie is what becomes of it. -/
theorem exists_at_landing {crumbs : List (Crumb N)} {node : N}
    (hat : (b.withZippers []).Reaches adapter crumbs node) (hremains : b.Remains crumbs) :
    ∃ made, adapter.follow new (landing b.zippers (Crumb.way crumbs)) = some made ∧
      (edited adapter b.zippers (height b.zippers - crumbs.length) (Crumb.way crumbs)
        node).Shows adapter made := by
  induction crumbs generalizing node with
  | nil =>
    cases hat
    exact ⟨new, rfl, hshows⟩
  | cons c above ih =>
    obtain ⟨habove, hchild⟩ := hat.tail_of_tree
    have hremains' := hremains.above
    obtain ⟨made, hmade, hmadeShows⟩ := ih habove hremains'
    rw [Crumb.way_cons, landing, adapter.follow_append, hmade, Option.bind_some]
    rcases hb.shows_cases habove hremains' (by omega) hmadeShows with
      ⟨hnone, rfl⟩ | ⟨-, lower, _, hlower, -, hrel⟩
    · have hnone' : ¬ b.EditedBelow (c :: above) := by
        rintro ⟨z, hz, d, hsuffix⟩
        exact hnone ⟨z, hz, c, (List.suffix_cons _ _).trans hsuffix⟩
      rw [landed_of_untouched (hb.carried_of_not_below habove hnone)]
      refine ⟨node, ?_, ?_⟩
      · rw [Adapter.follow, hchild]
        rfl
      · rw [← Crumb.way_cons, hb.edited_of_untouched hat hremains hnone']
        exact .keep node
    · have hchildShows : Option.Rel (Sketch.Shows adapter)
          (some (edited adapter b.zippers lower
            ((identity c.node, c.location) :: Crumb.way above) node))
          ((adapter.children made).at?
            (landed b.zippers (Crumb.way above) (identity c.node) c.location)) := by
        have hkept : carried b.zippers ((identity c.node, c.location) :: Crumb.way above)
            .delete = [] := hb.carried_of_remains hat hremains rfl
        have hplace := Children.at?_spread
          (fun l child => length_surrounded b.zippers ((identity c.node, l) :: Crumb.way above)
            (edited adapter b.zippers lower ((identity c.node, l) :: Crumb.way above) child))
          hchild (length_lt_room hkept)
        rw [getElem?_surrounded hkept] at hplace
        rw [← hplace]
        exact hrel _
      cases hfound : (adapter.children made).at?
          (landed b.zippers (Crumb.way above) (identity c.node) c.location) with
      | none =>
        rw [hfound] at hchildShows
        cases hchildShows
      | some child =>
        rw [hfound] at hchildShows
        cases hchildShows with
        | some hchildShows =>
          refine ⟨child, ?_, ?_⟩
          · rw [Adapter.follow, hfound]
            rfl
          · rw [List.length_cons, show height b.zippers - (above.length + 1) = lower by omega]
            exact hchildShows

/-- **Everything in the result** is what becomes of a node that remains, or a node of an edit, or
below such. -/
theorem others {path : List Location} {made : N} (hmade : adapter.follow new path = some made) :
    (∃ crumbs node, (b.withZippers []).Reaches adapter crumbs node ∧ b.Remains crumbs ∧
      path = landing b.zippers (Crumb.way crumbs)) ∨
    ∃ z ∈ b.zippers, z.edit ≠ .delete ∧ ∃ front rest, path = front ++ rest ∧
      adapter.follow new front = some z.node := by
  induction path using List.reverseRecOn generalizing made with
  | nil =>
    refine .inl ⟨[], b.root, .root, fun z hz _ hsuffix => hb.offRoot z hz ?_, rfl⟩
    exact List.suffix_nil.mp hsuffix
  | append_singleton path l ih =>
    have hwhole := hmade
    rw [adapter.follow_append] at hmade
    obtain ⟨m, hm, hchild⟩ := Option.bind_eq_some_iff.mp hmade
    replace hchild : (adapter.children m).at? l = some made := by
      obtain ⟨child, hchild, hsame⟩ := Option.bind_eq_some_iff.mp hchild
      rw [hchild, ← hsame]
      rfl
    rcases ih hm with ⟨crumbs, node, hat, hremains, rfl⟩ | ⟨z, hz, hedit, front, rest, rfl, hfront⟩
    · obtain ⟨m', hm', hshows'⟩ := hb.exists_at_landing hshows hat hremains
      obtain rfl : m = m' := Option.some.inj (hm.symm.trans hm')
      rcases hb.shows_cases hat hremains (by omega) hshows' with
        ⟨hnone, rfl⟩ | ⟨-, lower, _, -, -, hrel⟩
      · -- nothing is edited below, so the child is where it was
        have hlanded := landed_of_untouched (hb.carried_of_not_below hat hnone) l
        refine .inl ⟨⟨m, l⟩ :: crumbs, made, .down hat hchild, ?_, ?_⟩
        · exact hremains.child fun z hz _ hhere =>
            hnone ⟨z, hz, _, [], hhere.symm⟩
        · rw [Crumb.way_cons, landing, hlanded]
      · have hslot := hrel l
        rw [hchild] at hslot
        generalize hspread : ((adapter.children node).spread _).at? l = found at hslot
        cases hslot with
        | some hslotShows =>
          obtain ⟨r, place⟩ := l
          obtain ⟨i, child, k, hold, hplace, hsketch⟩ := Children.exists_of_at?_spread
            (fun l child => length_surrounded b.zippers ((identity node, l) :: Crumb.way crumbs)
              (edited adapter b.zippers lower ((identity node, l) :: Crumb.way crumbs) child))
            hspread
          rcases hb.shows_slot hat hremains hold hsketch hslotShows with
            ⟨hk, hremains'⟩ | ⟨z, hz, hedit, rfl⟩
          · refine .inl ⟨_, child, .down hat hold, hremains', ?_⟩
            rw [Crumb.way_cons, landing, landed, hplace, hk]
          · exact .inr ⟨z, hz, hedit, _, [], (List.append_nil _).symm, hwhole⟩
    · exact .inr ⟨z, hz, hedit, front, rest ++ [l], List.append_assoc _ _ _, hfront⟩

/-- **Unnested edits conserve** all that is not on their ways. -/
theorem conserved : Conserved adapter b new where
  kept crumbs node hat hremains hnone := by
    obtain ⟨made, hmade, hmadeShows⟩ := hb.exists_at_landing hshows hat hremains
    rw [hb.edited_of_untouched hat hremains hnone] at hmadeShows
    cases hmadeShows
    exact hmade
  rebuilt crumbs node hat hremains hbelow := by
    obtain ⟨made, hmade, hmadeShows⟩ := hb.exists_at_landing hshows hat hremains
    rcases hb.shows_cases hat hremains (by omega) hmadeShows with
      ⟨hnone, -⟩ | ⟨-, _, c, -, hrebuilds, -⟩
    · exact absurd hbelow hnone
    · obtain ⟨z, hz, d, hsuffix⟩ := hbelow
      refine ⟨made, c, hmade, hrebuilds, ?_⟩
      have hnode := hb.node_eq hat hz hsuffix
      rw [← hnode] at hrebuilds ⊢
      exact hb.renews z hz d (hsuffix.subset List.mem_cons_self) c made hrebuilds
  apart _ _ _ _ := hb.landing_inj
  others _ _ := hb.others hshows

end Result

end Unnested

end Batch

end Arborist
