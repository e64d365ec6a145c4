import Arborist.Proofs.AllAtOnce

/-!
# Edits address positions

A node may be reached along several ways, and replacing what is at a position should leave the other
positions of the same nodes alone. What is at the end of a way below a node is told by
`Adapter.follow`, and `EditedInPlace` says what a tree comes to when the nodes at some positions are
replaced: these carry the given nodes, everything above them is rebuilt, and all else is as it was.

A batch of replacements at valid and distinct positions, none of them below another, does so
(`toRoot_inPlace`) if on one level its edits run through a node at one position only (`PassesOnce`).
This holds by itself where no node is at two positions (`passesOnce_of_distinct`). It can't be left
out, since the edits of a level are grouped by the identity of their parent: `toRoot_sharedParent`
has two edits below one node at two positions, and both are made at the first of them.
-/

namespace Arborist

variable {σ N : Type}

/-! ### Following ways -/

/-- The node at the end of a way that leads down from another. -/
def Adapter.follow (adapter : Adapter σ N) (node : N) : List Location → Option N
  | [] => some node
  | l :: way => ((adapter.children node).at? l).bind fun child => follow adapter child way

/-- The way down that crumbs lead up. -/
def Crumb.path (crumbs : List (Crumb N)) : List Location :=
  (crumbs.map Crumb.location).reverse

/-- The way down to the position of an edit. -/
def Zipper.path (z : Zipper N) : List Location :=
  Crumb.path z.crumbs

@[simp] theorem Crumb.path_nil : Crumb.path ([] : List (Crumb N)) = [] := rfl

@[simp] theorem Crumb.path_cons (c : Crumb N) (crumbs : List (Crumb N)) :
    Crumb.path (c :: crumbs) = Crumb.path crumbs ++ [c.location] := by
  simp [Crumb.path]

@[simp] theorem Crumb.length_path (crumbs : List (Crumb N)) :
    (Crumb.path crumbs).length = crumbs.length := by
  simp [Crumb.path]

/-- Crumbs that lead further down along the same way. -/
theorem Crumb.path_prefix_of_suffix {above crumbs : List (Crumb N)} (h : above <:+ crumbs) :
    Crumb.path above <+: Crumb.path crumbs := by
  rw [Crumb.path, Crumb.path, List.reverse_prefix]
  exact h.map _

/-- A way up to the root determines the way down. -/
theorem Crumb.path_eq_of_way [Identified N] {xs ys : List (Crumb N)}
    (h : Crumb.way xs = Crumb.way ys) : Crumb.path xs = Crumb.path ys := by
  have hlocations := congrArg (List.map Prod.snd) h
  rw [Crumb.way, Crumb.way, List.map_map, List.map_map] at hlocations
  exact congrArg List.reverse hlocations

theorem Crumb.exists_suffix_of_path {crumbs : List (Crumb N)} {path way : List Location}
    (h : Crumb.path crumbs = path ++ way) :
    ∃ above, above <:+ crumbs ∧ Crumb.path above = path := by
  refine ⟨crumbs.drop way.length, List.drop_suffix _ _, ?_⟩
  have hlocations : crumbs.map Crumb.location = way.reverse ++ path.reverse := by
    rw [← List.reverse_append, ← h, Crumb.path, List.reverse_reverse]
  rw [Crumb.path, List.map_drop, hlocations, ← List.length_reverse, List.drop_left,
    List.reverse_reverse]

theorem Adapter.follow_append (adapter : Adapter σ N) (node : N) (way rest : List Location) :
    adapter.follow node (way ++ rest) =
      (adapter.follow node way).bind fun m => adapter.follow m rest := by
  induction way generalizing node with
  | nil => rfl
  | cons l way ih =>
    simp only [List.cons_append, follow, Option.bind_assoc, ih]

namespace Children

variable {M L : Type}

theorem mem_flatten_of_at? {c : Children M} {l : Location} {m : M} (h : c.at? l = some m) :
    m ∈ c.flatten := by
  obtain ⟨list, hlist, hm⟩ := Option.bind_eq_some_iff.mp h
  exact List.mem_flatMap.mpr ⟨_, mem_groups_of_get? hlist, List.mem_of_getElem? hm⟩

/-- What lists of the same length have at an index. -/
theorem getElem?_related {R : M → L → Prop} {ms : List M} {ls : List L} (h : List.Forall₂ R ms ls)
    (i : Nat) : Option.Rel R ms[i]? ls[i]? := by
  induction h generalizing i with
  | nil => exact .none
  | cons hR _ ih =>
    cases i with
    | zero => exact .some hR
    | succ i => exact ih i

/-- What children of the same shape have at a location. -/
theorem at?_related {R : M → L → Prop} {a : Children M} {b : Children L}
    (hshape : a.shape = b.shape) (hall : List.Forall₂ R a.flatten b.flatten) (l : Location) :
    Option.Rel R (a.at? l) (b.at? l) := by
  obtain ⟨groups⟩ := a
  obtain ⟨groups'⟩ := b
  simp only [shape, flatten, at?, get?] at hshape hall ⊢
  induction groups generalizing groups' with
  | nil =>
    obtain rfl := List.map_eq_nil_iff.mp hshape.symm
    exact .none
  | cons g groups ih =>
    obtain ⟨⟨r, list'⟩, groups', rfl, heq, hrest⟩ := List.map_eq_cons_iff.mp hshape.symm
    obtain ⟨r', list⟩ := g
    obtain ⟨rfl, hlength⟩ := Prod.mk.inj heq
    rw [List.flatMap_cons, List.flatMap_cons] at hall
    have hlists : List.Forall₂ R list list' := by
      have htake := List.forall₂_take list.length hall
      rwa [List.take_left, show list.length = list'.length from hlength.symm, List.take_left]
        at htake
    have hgroups : List.Forall₂ R (groups.flatMap Prod.snd) (groups'.flatMap Prod.snd) := by
      have hdrop := List.forall₂_drop list.length hall
      rwa [List.drop_left, show list.length = list'.length from hlength.symm, List.drop_left]
        at hdrop
    simp only [lookup]
    split
    · exact getElem?_related hlists l.index
    · exact ih groups' hrest.symm hgroups

theorem flatten_mapIdx_single (g : Nat → M → L) (list : List M) :
    (list.mapIdx fun i m => [g i m]).flatten = list.mapIdx g := by
  induction list generalizing g with
  | nil => rfl
  | cons m list ih =>
    rw [List.mapIdx_cons, List.mapIdx_cons, List.flatten_cons, ih fun i => g (i + 1)]
    rfl

/-- Children that are each replaced by one keep their shape. -/
theorem shape_spread_single (f : Location → M → L) (c : Children M) :
    (c.spread fun l m => [f l m]).shape = c.shape := by
  rw [shape, shape, spread, List.map_map]
  refine List.map_congr_left fun g _ => ?_
  simp only [Function.comp, flatten_mapIdx_single (fun i => f ⟨g.1, i⟩), List.length_mapIdx]

/-- Children that are each replaced by one stay where they are. -/
theorem at?_spread_single (f : Location → M → L) (c : Children M) (l : Location) :
    (c.spread fun l m => [f l m]).at? l = (c.at? l).map (f l) := by
  obtain ⟨groups⟩ := c
  obtain ⟨role, index⟩ := l
  simp only [at?, get?, spread]
  induction groups with
  | nil => rfl
  | cons g groups ih =>
    obtain ⟨r, list⟩ := g
    rw [List.map_cons, lookup, lookup]
    split
    · next hr =>
      obtain rfl : r = role := hr
      rw [flatten_mapIdx_single fun i => f ⟨r, i⟩]
      exact List.getElem?_mapIdx
    · exact ih

end Children

/-! ### Replacements in place -/

variable [Identified N] {adapter : Adapter σ N}

/-- `new` is the node at `path` once the edits below it were made **in place**: every position of an
edit carries the node of the edit, the nodes on the way there are rebuilt, with as many children
under every role as they had, and all other nodes are the ones that were there. -/
structure EditedInPlace (adapter : Adapter σ N) (zs : List (Zipper N)) (path : List Location)
    (node new : N) : Prop where
  edited : ∀ z ∈ zs, ∀ way rest, z.path = path ++ way →
    adapter.follow new (way ++ rest) = adapter.follow z.node rest
  rebuilt : ∀ z ∈ zs, ∀ way rest, z.path = path ++ (way ++ rest) → rest ≠ [] →
    ∃ old made c, adapter.follow node way = some old ∧ adapter.follow new way = some made ∧
      adapter.Rebuilds old c made ∧ c.shape = (adapter.children old).shape
  elsewhere : ∀ way, (∀ z ∈ zs, ¬ z.path <+: path ++ way ∧ ¬ path ++ way <+: z.path) →
    adapter.follow new way = adapter.follow node way

namespace Batch

variable {b : Batch N}

/-- The edits of a batch are **positional**: they replace nodes at distinct positions of the tree,
none of them below another. The adapter is lawful where they run through, and lists of children stay
within machine words. -/
structure Positional (adapter : Adapter σ N) (b : Batch N) : Prop where
  replaces : ∀ z ∈ b.zippers, z.edit = .replace
  reached : ∀ z ∈ b.zippers, ∃ node, (b.withZippers []).Reaches adapter z.crumbs node
  distinct : (b.zippers.map Zipper.path).Nodup
  clear : ∀ y ∈ b.zippers, ∀ z ∈ b.zippers, y.path <+: z.path → y.path = z.path
  lawful : ∀ z ∈ b.zippers, ∀ c ∈ z.crumbs, adapter.LawfulAt c.node
  fits : ∀ z ∈ b.zippers, ∀ c ∈ z.crumbs, ∀ r list, (adapter.children c.node).get? r = some list →
    list.length + b.zippers.length < 9223372036854775808

/-- On one level the edits run through a node **at one position only**. -/
def PassesOnce (b : Batch N) : Prop :=
  ∀ y ∈ b.zippers, ∀ z ∈ b.zippers, ∀ (c d : Crumb N) (above beyond : List (Crumb N)),
    c :: above <:+ y.crumbs → d :: beyond <:+ z.crumbs → above.length = beyond.length →
    identity c.node = identity d.node → Crumb.path above = Crumb.path beyond

/-! ### Positions of the tree -/

section Tree

variable {crumbs above : List (Crumb N)} {c : Crumb N} {node : N}

omit [Identified N] in
/-- Crumbs of the tree lead from the node that they name. -/
theorem Reaches.tail_of_tree (h : (b.withZippers []).Reaches adapter (c :: above) node) :
    (b.withZippers []).Reaches adapter above c.node ∧
      (adapter.children c.node).at? c.location = some node := by
  obtain ⟨hfound, m, hm, rfl | ⟨z, hz, -⟩⟩ := h.tail
  · exact ⟨hm, hfound⟩
  · exact absurd hz List.not_mem_nil

omit [Identified N] in
/-- The node that is reached is at the end of the way. -/
theorem Reaches.follow (h : (b.withZippers []).Reaches adapter crumbs node) :
    adapter.follow b.root (Crumb.path crumbs) = some node := by
  induction crumbs generalizing node with
  | nil =>
    cases h
    rfl
  | cons c above ih =>
    obtain ⟨habove, hfound⟩ := h.tail_of_tree
    rw [Crumb.path_cons, adapter.follow_append, ih habove, Option.bind_some, Adapter.follow, hfound]
    rfl

omit [Identified N] in
/-- A way leads through one list of crumbs. -/
theorem Reaches.crumbs_eq {xs ys : List (Crumb N)} {m n : N}
    (hx : (b.withZippers []).Reaches adapter xs m) (hy : (b.withZippers []).Reaches adapter ys n)
    (hpath : Crumb.path xs = Crumb.path ys) : xs = ys := by
  induction xs generalizing ys m n with
  | nil =>
    have hlength := congrArg List.length hpath
    simp only [Crumb.length_path, List.length_nil] at hlength
    exact (List.eq_nil_of_length_eq_zero hlength.symm).symm
  | cons c above ih =>
    cases ys with
    | nil => simp at hpath
    | cons d beyond =>
      rw [Crumb.path_cons, Crumb.path_cons] at hpath
      obtain ⟨habove, hlocation⟩ := List.append_inj' hpath rfl
      obtain ⟨hx', -⟩ := hx.tail_of_tree
      obtain ⟨hy', -⟩ := hy.tail_of_tree
      obtain rfl := ih hx' hy' habove
      rw [Crumb.ext_of (hx'.unique hy') (List.singleton_inj.mp hlocation)]

omit [Identified N] in
/-- What is reached in the tree is reached whatever is edited. -/
theorem Reaches.of_tree (h : (b.withZippers []).Reaches adapter crumbs node) :
    b.Reaches adapter crumbs node := by
  induction h with
  | root => exact .root
  | down _ found ih => exact .down ih found
  | through _ mem => exact absurd mem List.not_mem_nil

/-- What edits of positions of the tree run through below a position is edited below it. -/
theorem Reaches.exists_below (hat : (b.withZippers []).Reaches adapter crumbs node)
    (hreached : ∀ z ∈ b.zippers, ∃ n, (b.withZippers []).Reaches adapter z.crumbs n) {m : N}
    (hbelow : editsBelow b.zippers m (Crumb.way crumbs) = true) :
    ∃ y ∈ b.zippers, ∃ c, c :: crumbs <:+ y.crumbs := by
  rw [editsBelow, List.any_eq_true] at hbelow
  obtain ⟨y, hy, hpasses⟩ := hbelow
  obtain ⟨l, hsuffix⟩ := Way.passes_iff.mp hpasses
  obtain ⟨above, habove, hway⟩ := suffix_of_way hsuffix
  obtain ⟨n, hn⟩ := hreached y hy
  obtain ⟨n', hn'⟩ := hn.of_suffix habove
  cases above with
  | nil => simp at hway
  | cons c above =>
    rw [Crumb.way_cons] at hway
    obtain rfl := hn'.tail_of_tree.1.crumbs_eq hat
      (Crumb.path_eq_of_way (List.cons.inj hway).2)
    exact ⟨y, hy, c, habove⟩

/-- In a tree in which no node is at two positions edits run through every node once. -/
theorem passesOnce_of_distinct (hreached : ∀ z ∈ b.zippers, ∃ node,
      (b.withZippers []).Reaches adapter z.crumbs node)
    (hdistinct : ∀ xs ys m n, (b.withZippers []).Reaches adapter xs m →
      (b.withZippers []).Reaches adapter ys n → identity m = identity n → xs = ys) :
    b.PassesOnce := by
  intro y hy z hz c d above beyond hc hd _ hid
  obtain ⟨m, hm⟩ := hreached y hy
  obtain ⟨n, hn⟩ := hreached z hz
  obtain ⟨m', hm'⟩ := hm.of_suffix hc
  obtain ⟨n', hn'⟩ := hn.of_suffix hd
  rw [hdistinct _ _ _ _ hm'.tail_of_tree.1 hn'.tail_of_tree.1 hid]

end Tree

/-! ### Positional edits are coherent -/

namespace Positional

variable (hb : b.Positional adapter)

include hb

omit [Identified N] in
/-- No edit is made strictly below another. -/
theorem not_below {y z : Zipper N} (hy : y ∈ b.zippers) (hz : z ∈ b.zippers) {c : Crumb N} :
    ¬ c :: z.crumbs <:+ y.crumbs := by
  intro hsuffix
  have hextends : z.path <+: y.path :=
    Crumb.path_prefix_of_suffix ((List.suffix_cons c z.crumbs).trans hsuffix)
  have hlength := congrArg List.length (hb.clear z hz y hy hextends)
  simp only [Zipper.path, Crumb.length_path] at hlength
  have hle := hsuffix.length_le
  rw [List.length_cons] at hle
  omega

omit [Identified N] in
theorem eq_of_path {y z : Zipper N} (hy : y ∈ b.zippers) (hz : z ∈ b.zippers)
    (hpath : y.path = z.path) : y = z :=
  List.inj_on_of_nodup_map hb.distinct hy hz hpath

/-- **Positional edits are coherent** if they run through no node at two positions of a level. -/
theorem coherent (honce : b.PassesOnce) : b.Coherent adapter where
  reached z hz := by
    obtain ⟨node, hnode⟩ := hb.reached z hz
    exact ⟨node, hnode.of_tree⟩
  once := by
    refine (List.pairwise_map.mp hb.distinct).imp fun hne _ _ hway => ?_
    exact hne (Crumb.path_eq_of_way hway)
  fresh z hz _ y hy c hc := absurd hc (hb.not_below hy hz)
  rootAlone z hz _ := by
    rw [hb.replaces z hz]
    rfl
  rootDeleted z hz _ hdelete := by
    rw [hb.replaces z hz] at hdelete
    cases hdelete
  sided z hz _ x hx y _ c d hc _ := absurd hc (hb.not_below hx hz)
  lawful := hb.lawful
  fits := hb.fits
  apart y hy z hz c d above beyond hc hd hlength hid := by
    obtain ⟨m, hm⟩ := hb.reached y hy
    obtain ⟨n, hn⟩ := hb.reached z hz
    obtain ⟨m', hm'⟩ := hm.of_suffix hc
    obtain ⟨n', hn'⟩ := hn.of_suffix hd
    have habove := hm'.tail_of_tree.1
    have hbeyond := hn'.tail_of_tree.1
    obtain rfl := habove.crumbs_eq hbeyond (honce y hy z hz c d above beyond hc hd hlength hid)
    exact ⟨habove.unique hbeyond, rfl⟩

end Positional

/-! ### What replacements come to -/

section Edited

variable {crumbs : List (Crumb N)} {node new : N} {levels : Nat}

/-- Replacements put nothing beside a child and remove none. -/
theorem Positional.surrounded_eq (hb : b.Positional adapter) (way : Way N) (child : Sketch N) :
    surrounded b.zippers way child = [child] := by
  have hnone : ∀ edit, edit ≠ .replace → carried b.zippers way edit = [] := fun edit hne =>
    carried_eq_nil fun z hz _ hedit => hne (hedit ▸ hb.replaces z hz)
  rw [surrounded, hnone .insertBefore (by decide), hnone .insertAfter (by decide),
    hnone .delete (by decide)]
  rfl

variable (hb : b.Positional adapter) (hat : (b.withZippers []).Reaches adapter crumbs node)

include hb hat

omit [Identified N] in
/-- Edits further down run through the node of the position. -/
theorem Positional.suffix_of_path {z : Zipper N} (hz : z ∈ b.zippers) {l : Location}
    {way : List Location} (hpath : z.path = Crumb.path crumbs ++ l :: way) :
    ⟨node, l⟩ :: crumbs <:+ z.crumbs := by
  obtain ⟨m, hm⟩ := hb.reached z hz
  have hthrough : Crumb.path z.crumbs = (Crumb.path crumbs ++ [l]) ++ way := by
    rw [List.append_assoc]
    exact hpath
  obtain ⟨above, habove, hway⟩ := Crumb.exists_suffix_of_path hthrough
  obtain ⟨m', hm'⟩ := hm.of_suffix habove
  cases above with
  | nil => simp at hway
  | cons c above =>
    rw [Crumb.path_cons] at hway
    obtain ⟨hway, hlocation⟩ := List.append_inj' hway rfl
    have htail := hm'.tail_of_tree.1
    obtain rfl := htail.crumbs_eq hat hway
    rw [Crumb.ext_of (d := ⟨node, l⟩) (htail.unique hat) (List.singleton_inj.mp hlocation)]
      at habove
    exact habove

theorem Positional.exists_below {m : N}
    (hbelow : editsBelow b.zippers m (Crumb.way crumbs) = true) :
    ∃ y ∈ b.zippers, ∃ c, c :: crumbs <:+ y.crumbs :=
  hat.exists_below hb.reached hbelow

/-- A position that is replaced shows the node of the edit. -/
theorem Positional.edited_here {z : Zipper N} (hz : z ∈ b.zippers) (hhere : z.crumbs = crumbs)
    (levels : Nat) (m : N) :
    edited adapter b.zippers levels (Crumb.way crumbs) m = .keep z.node := by
  have hstanding : standing b.zippers (Crumb.way crumbs) m = z.node := by
    have hmem : z.node ∈ carried b.zippers (Crumb.way crumbs) .replace :=
      mem_carried.mpr ⟨z, hz, congrArg Crumb.way hhere, hb.replaces z hz, rfl⟩
    rw [standing]
    cases hcarried : carried b.zippers (Crumb.way crumbs) .replace with
    | nil =>
      rw [hcarried] at hmem
      exact absurd hmem List.not_mem_nil
    | cons first rest =>
      obtain ⟨y, hy, hway, -, hnode⟩ := mem_carried.mp (hcarried ▸ List.mem_cons_self : first ∈ _)
      have hpath : y.path = z.path := by
        rw [Zipper.path, Zipper.path, hhere]
        exact Crumb.path_eq_of_way hway
      -- two edits of one position would have the same way
      obtain rfl := hb.eq_of_path hy hz hpath
      exact hnode.symm
  have hbelow : editsBelow b.zippers z.node (Crumb.way crumbs) = false := by
    rw [Bool.eq_false_iff]
    intro hbelow
    obtain ⟨y, hy, c, hsuffix⟩ := hb.exists_below hat hbelow
    exact hb.not_below hy hz (hhere ▸ hsuffix)
  rw [edited_of_not_below (by rwa [hstanding]), hstanding]

omit hat in
omit [Identified N] in
/-- The node of an edit is in place at the position of the edit. -/
theorem Positional.inPlace_here {z : Zipper N} (hz : z ∈ b.zippers) :
    EditedInPlace adapter b.zippers z.path node z.node where
  edited y hy way rest hpath := by
    have hsame : z.path = y.path := hb.clear z hz y hy ⟨way, hpath.symm⟩
    obtain rfl : way = [] := by
      rw [hsame] at hpath
      exact List.self_eq_append_right.mp hpath
    rw [hb.eq_of_path hy hz hsame.symm, List.nil_append]
  rebuilt y hy way rest hpath hrest := by
    have hsame : z.path = y.path := hb.clear z hz y hy ⟨way ++ rest, hpath.symm⟩
    rw [hsame] at hpath
    exact absurd (List.append_eq_nil_iff.mp (List.self_eq_append_right.mp hpath)).2 hrest
  elsewhere way hnone := absurd (List.prefix_append _ _) (hnone z hz).1

omit hb hat in
omit [Identified N] in
/-- Where no edit is made at a node or below it, the node is in place. -/
theorem inPlace_untouched {path : List Location} (hnone : ∀ z ∈ b.zippers, ¬ path <+: z.path) :
    EditedInPlace adapter b.zippers path node node where
  edited z hz way _ hpath := absurd ⟨way, hpath.symm⟩ (hnone z hz)
  rebuilt z hz way rest hpath _ := absurd ⟨way ++ rest, hpath.symm⟩ (hnone z hz)
  elsewhere _ _ := rfl

omit hb hat in
omit [Identified N] in
/-- A node that is rebuilt from children in place is in place. -/
theorem inPlace_rebuilt {path : List Location} {c : Children N} {y : Zipper N}
    (hy : y ∈ b.zippers) (hbelow : path <+: y.path) (hnone : ∀ z ∈ b.zippers, z.path ≠ path)
    (hrebuilds : adapter.Rebuilds node c new) (hshape : c.shape = (adapter.children node).shape)
    (hinside : ∀ z ∈ b.zippers, ∀ l way, z.path = path ++ l :: way →
      ∃ child, (adapter.children node).at? l = some child)
    (hchildren : ∀ l, Option.Rel (EditedInPlace adapter b.zippers (path ++ [l]))
      ((adapter.children node).at? l) ((adapter.children new).at? l)) :
    EditedInPlace adapter b.zippers path node new := by
  have hmade : ∀ z ∈ b.zippers, ∀ l way, z.path = path ++ l :: way → ∃ child made,
      (adapter.children node).at? l = some child ∧ (adapter.children new).at? l = some made ∧
      EditedInPlace adapter b.zippers (path ++ [l]) child made := by
    intro z hz l way hpath
    obtain ⟨child, hchild⟩ := hinside z hz l way hpath
    have hrel := hchildren l
    rw [hchild] at hrel
    cases hmade : (adapter.children new).at? l with
    | none =>
      rw [hmade] at hrel
      cases hrel
    | some made =>
      rw [hmade] at hrel
      cases hrel with
      | some h => exact ⟨child, made, hchild, rfl, h⟩
  refine ⟨fun z hz way rest hpath => ?_, fun z hz way rest hpath hrest => ?_, fun way hout => ?_⟩
  · cases way with
    | nil => exact absurd (hpath.trans (List.append_nil _)) (hnone z hz)
    | cons l way =>
      obtain ⟨child, made, -, hnew, h⟩ := hmade z hz l way hpath
      rw [List.cons_append, Adapter.follow, hnew]
      exact h.edited z hz way rest (by simpa using hpath)
  · cases way with
    | nil => exact ⟨node, new, c, rfl, rfl, hrebuilds, hshape⟩
    | cons l way =>
      obtain ⟨child, made, hchild, hnew, h⟩ := hmade z hz l (way ++ rest) hpath
      rw [Adapter.follow, Adapter.follow, hchild, hnew]
      exact h.rebuilt z hz way rest (by simpa using hpath) hrest
  · cases way with
    | nil => exact absurd (by rwa [List.append_nil]) (hout y hy).2
    | cons l way =>
      rw [Adapter.follow, Adapter.follow]
      have hchild := hchildren l
      generalize (adapter.children node).at? l = child at hchild
      generalize (adapter.children new).at? l = made at hchild
      cases hchild with
      | none => rfl
      | some h => exact h.elsewhere way fun z hz => by simpa using hout z hz

omit [Identified N] in
/-- An edit whose way leads to a position is made there. -/
theorem Positional.crumbs_eq_of_path {z : Zipper N} (hz : z ∈ b.zippers)
    (hpath : z.path = Crumb.path crumbs) : z.crumbs = crumbs := by
  obtain ⟨n, hn⟩ := hb.reached z hz
  exact hn.crumbs_eq hat hpath

/-- A node with no edit at its position stands there. -/
theorem Positional.standing_eq (hnone : ∀ z ∈ b.zippers, z.crumbs ≠ crumbs) :
    standing b.zippers (Crumb.way crumbs) node = node := by
  rw [standing, carried_eq_nil fun z hz hway _ =>
    hnone z hz (hb.crumbs_eq_of_path hat hz (Crumb.path_eq_of_way hway))]
  rfl

/-- A node with no edit at its position or below is in place. -/
theorem Positional.inPlace_of_not_below (hnone : ∀ z ∈ b.zippers, z.crumbs ≠ crumbs)
    (hbelow : editsBelow b.zippers node (Crumb.way crumbs) = false) :
    EditedInPlace adapter b.zippers (Crumb.path crumbs) node node := by
  refine inPlace_untouched fun z hz hextends => ?_
  obtain ⟨way, hway⟩ := hextends
  cases way with
  | nil =>
    rw [List.append_nil] at hway
    exact hnone z hz (hb.crumbs_eq_of_path hat hz hway.symm)
  | cons l way =>
    have hsuffix := (hb.suffix_of_path hat hz hway.symm).map Crumb.step
    rw [editsBelow, List.any_eq_false] at hbelow
    exact hbelow z hz (Way.passes_iff.mpr ⟨l, hsuffix⟩)

/-- **What replacements below a position come to** is that they are made in place. -/
theorem Positional.editedInPlace (hlevels : height b.zippers ≤ levels + crumbs.length)
    (hshows : (edited adapter b.zippers levels (Crumb.way crumbs) node).Shows adapter new) :
    EditedInPlace adapter b.zippers (Crumb.path crumbs) node new := by
  -- at every position there is an edit, or there are edits below it, or neither
  induction levels generalizing crumbs node new with
  | zero =>
    by_cases hhere : ∃ z ∈ b.zippers, z.crumbs = crumbs
    · obtain ⟨z, hz, rfl⟩ := hhere
      rw [hb.edited_here hat hz rfl] at hshows
      cases hshows
      exact hb.inPlace_here hz
    · have hnone : ∀ z ∈ b.zippers, z.crumbs ≠ crumbs := fun z hz h => hhere ⟨z, hz, h⟩
      have hbelow : editsBelow b.zippers node (Crumb.way crumbs) = false := by
        rw [Bool.eq_false_iff]
        intro hbelow
        obtain ⟨y, hy, c, hsuffix⟩ := hb.exists_below hat hbelow
        have hdeep := Nat.le_trans hsuffix.length_le (depth_le_height hy)
        rw [List.length_cons] at hdeep
        omega
      rw [edited, hb.standing_eq hat hnone] at hshows
      cases hshows
      exact hb.inPlace_of_not_below hat hnone hbelow
  | succ levels ih =>
    by_cases hhere : ∃ z ∈ b.zippers, z.crumbs = crumbs
    · obtain ⟨z, hz, rfl⟩ := hhere
      rw [hb.edited_here hat hz rfl] at hshows
      cases hshows
      exact hb.inPlace_here hz
    · have hnone : ∀ z ∈ b.zippers, z.crumbs ≠ crumbs := fun z hz h => hhere ⟨z, hz, h⟩
      simp only [edited, hb.standing_eq hat hnone, hb.surrounded_eq] at hshows
      split at hshows
      · next hbelow =>
        cases hshows with
        | @rebuild _ _ _ c rebuilt shape below =>
          obtain ⟨y, hy, d, hsuffix⟩ := hb.exists_below hat hbelow
          have hextends : Crumb.path crumbs <+: y.path :=
            Crumb.path_prefix_of_suffix ((List.suffix_cons d crumbs).trans hsuffix)
          refine inPlace_rebuilt hy hextends
            (fun z hz h => hnone z hz (hb.crumbs_eq_of_path hat hz h)) rebuilt
            (shape.symm.trans (Children.shape_spread_single _ _))
            (fun z hz l way hpath => ?_) fun l => ?_
          · obtain ⟨n, hn⟩ := hb.reached z hz
            obtain ⟨child, hchild⟩ := hn.of_suffix (hb.suffix_of_path hat hz hpath)
            exact ⟨child, hchild.tail_of_tree.2⟩
          · have hrel := Children.at?_related shape below l
            rw [Children.at?_spread_single, ← rebuilt.2] at hrel
            cases hchild : (adapter.children node).at? l with
            | none =>
              rw [hchild] at hrel
              generalize (adapter.children new).at? l = made at hrel
              cases hrel
              exact .none
            | some child =>
              rw [hchild] at hrel
              generalize (adapter.children new).at? l = made at hrel
              cases hrel with
              | some hchildShows =>
                have hlevels' : height b.zippers ≤ levels + (⟨node, l⟩ :: crumbs).length := by
                  rw [List.length_cons]
                  omega
                exact .some (Crumb.path_cons ⟨node, l⟩ crumbs ▸
                  ih (.down hat hchild) hlevels' hchildShows)
      · next hbelow =>
        cases hshows
        exact hb.inPlace_of_not_below hat hnone (Bool.eq_false_iff.mpr hbelow)

end Edited

/-- **Replacements are made in place**: a batch of replacements at distinct positions, none of them
below another, is applied without failure, and gives the tree in which exactly these positions carry
the given nodes, if on one level its edits run through a node at one position only. Nodes may be
shared otherwise. -/
theorem toRoot_inPlace (hb : b.Positional adapter) (honce : b.PassesOnce) (s : σ) :
    ∃ new s', (b.toRoot adapter).runWith s = (.ok (some new), s') ∧
      EditedInPlace adapter b.zippers [] b.root new := by
  by_cases hnil : b.zippers = []
  · refine ⟨b.root, s, toRoot_of_nil adapter hnil s, inPlace_untouched fun z hz => ?_⟩
    rw [hnil] at hz
    exact absurd hz List.not_mem_nil
  · obtain ⟨result, s', hrun, hrel⟩ := (hb.coherent honce).toRoot_of_ne_nil hnil s
    have hnone : carried b.zippers [] .delete = [] := carried_eq_nil fun z hz _ hedit => by
      rw [hb.replaces z hz] at hedit
      cases hedit
    rw [simultaneous, hnone] at hrel
    cases hrel with
    | some hshows =>
      refine ⟨_, s', hrun, hb.editedInPlace .root ?_ hshows⟩
      exact Nat.le_refl _

/-! ### A node at three positions -/

open Arborist.Graph

/-- A root that reaches `p` three times: twice at once, and once more by way of `q`. -/
def commonTable : Table where
  entries := [("root", ⟨[(.named "x", ["p", "q", "p"])]⟩), ("q", ⟨[(.named "x", ["p"])]⟩),
    ("p", ⟨[(.named "x", ["c"])]⟩)]

/-- Replacements below `p` at two positions of different levels. -/
def commonBatch : Batch Node where
  root := .listed "root"
  zippers := [
    ⟨.listed "n", [below "p" 0, below "root" 0], .replace⟩,
    ⟨.listed "m", [below "p" 0, below "q" 0, below "root" 1], .replace⟩]

/-- Replacements below `p` at two positions of one level. -/
def forkedBatch : Batch Node where
  root := .listed "root"
  zippers := [
    ⟨.listed "n", [below "p" 0, below "root" 0], .replace⟩,
    ⟨.listed "m", [below "p" 0, below "root" 2], .replace⟩]

theorem commonTable_children {name : String} (hname : name ∈ ["root", "q", "p"]) :
    ∃ list, commonTable.children (.listed name) = ⟨[(.named "x", list)]⟩ ∧ list.length ≤ 3 ∧
      name ∉ commonTable.rejected := by
  simp only [List.mem_cons, List.not_mem_nil, or_false] at hname
  rcases hname with rfl | rfl | rfl <;> exact ⟨_, rfl, by decide, List.not_mem_nil⟩

/-- Replacements below listed nodes of the table are positional, if their positions are. -/
theorem positional_of_common {b : Batch Node} (hreplaces : ∀ z ∈ b.zippers, z.edit = .replace)
    (hreached : ∀ z ∈ b.zippers, ∃ node,
      (b.withZippers []).Reaches (commonTable.adapter : Adapter Nat Node) z.crumbs node)
    (hdistinct : (b.zippers.map Zipper.path).Nodup)
    (hclear : ∀ y ∈ b.zippers, ∀ z ∈ b.zippers, y.path <+: z.path → y.path = z.path)
    (hlisted : ∀ z ∈ b.zippers, ∀ c ∈ z.crumbs, ∃ name ∈ ["root", "q", "p"],
      c.node = .listed name)
    (hcount : b.zippers.length ≤ 2) : b.Positional (commonTable.adapter : Adapter Nat Node) where
  replaces := hreplaces
  reached := hreached
  distinct := hdistinct
  clear := hclear
  lawful z hz c hc := by
    obtain ⟨name, hname, hnode⟩ := hlisted z hz c hc
    obtain ⟨list, hlist, -, hlabel⟩ := commonTable_children hname
    rw [hnode]
    exact Table.lawfulAt _ _ (by simp [hlist, Children.roles]) hlabel
  fits z hz c hc r list hr := by
    obtain ⟨name, hname, hnode⟩ := hlisted z hz c hc
    obtain ⟨known, hlist, hlength, -⟩ := commonTable_children hname
    rw [hnode] at hr
    rw [Children.eq_of_get?_single hlist hr]
    omega

theorem commonBatch_positional :
    commonBatch.Positional (commonTable.adapter : Adapter Nat Node) := by
  refine positional_of_common (by simp [commonBatch]) ?_ (by decide) (by decide) ?_ (by decide)
  · simp only [commonBatch, List.forall_mem_cons]
    exact ⟨⟨_, .down (.down .root rfl) rfl⟩, ⟨_, .down (.down (.down .root rfl) rfl) rfl⟩, by simp⟩
  · simp [commonBatch, below]

theorem forkedBatch_positional :
    forkedBatch.Positional (commonTable.adapter : Adapter Nat Node) := by
  refine positional_of_common (by simp [forkedBatch]) ?_ (by decide) (by decide) ?_ (by decide)
  · simp only [forkedBatch, List.forall_mem_cons]
    exact ⟨⟨_, .down (.down .root rfl) rfl⟩, ⟨_, .down (.down .root rfl) rfl⟩, by simp⟩
  · simp [forkedBatch, below]

/-- The nodes that the edits of the first batch run through, with the ways to them. -/
theorem commonBatch_stations {z : Zipper Node} (hz : z ∈ commonBatch.zippers) {c : Crumb Node}
    {above : List (Crumb Node)} (hc : c :: above <:+ z.crumbs) :
    (c.node, above) ∈ [(Node.listed "root", []), (.listed "p", [below "root" 0]),
      (.listed "q", [below "root" 1]), (.listed "p", [below "q" 0, below "root" 1])] := by
  simp only [commonBatch, List.mem_cons, List.not_mem_nil, or_false] at hz
  rcases hz with rfl | rfl <;>
    simp only [List.suffix_cons_iff, List.suffix_nil, List.cons.injEq, reduceCtorEq,
      or_false] at hc <;>
    grind [below]

theorem commonBatch_passesOnce : commonBatch.PassesOnce := by
  intro y hy z hz c d above beyond hc hd hlength hid
  have hc := commonBatch_stations hy hc
  have hd := commonBatch_stations hz hd
  simp only [List.mem_cons, List.not_mem_nil, or_false, Prod.mk.injEq] at hc hd
  rcases hc with ⟨hc, rfl⟩ | ⟨hc, rfl⟩ | ⟨hc, rfl⟩ | ⟨hc, rfl⟩ <;>
    rcases hd with ⟨hd, rfl⟩ | ⟨hd, rfl⟩ | ⟨hd, rfl⟩ | ⟨hd, rfl⟩ <;> simp_all

theorem toRoot_inPlace_common :
    commonBatch.Positional (commonTable.adapter : Adapter Nat Node) ∧ commonBatch.PassesOnce ∧
      ∃ new s', (commonBatch.toRoot (commonTable.adapter : Adapter Nat Node)).runWith 0 =
          (.ok (some new), s') ∧
        EditedInPlace (commonTable.adapter : Adapter Nat Node) commonBatch.zippers []
          commonBatch.root new :=
  ⟨commonBatch_positional, commonBatch_passesOnce,
    toRoot_inPlace commonBatch_positional commonBatch_passesOnce 0⟩

/-- How many levels there are below a node of the table. -/
def commonLevels : String → Nat
  | "root" => 3
  | "q" => 2
  | "p" => 1
  | _ => 0

theorem commonTable_descends {name : String} {child : Node}
    (h : child ∈ (commonTable.children (.listed name)).flatten) :
    ∃ lower, child = .listed lower ∧ commonLevels lower < commonLevels name := by
  by_cases hname : name ∈ ["root", "q", "p"]
  · simp only [List.mem_cons, List.not_mem_nil, or_false] at hname
    rcases hname with rfl | rfl | rfl
    · change child ∈ [Node.listed "p", .listed "q", .listed "p"] at h
      simp only [List.mem_cons, List.not_mem_nil, or_false] at h
      rcases h with rfl | rfl | rfl <;> exact ⟨_, rfl, by decide⟩
    · change child ∈ [Node.listed "p"] at h
      exact ⟨_, List.mem_singleton.mp h, by decide⟩
    · change child ∈ [Node.listed "c"] at h
      exact ⟨_, List.mem_singleton.mp h, by decide⟩
  · have hnone : commonTable.entries.lookup name = none :=
      List.lookup_eq_none_iff.mpr (by simpa [commonTable] using hname)
    rw [Table.children, hnone] at h
    exact absurd h List.not_mem_nil

/-- All ways down in the table end. -/
theorem commonTable_follow {name : String} {way : List Location} {node : Node}
    (h : (commonTable.adapter : Adapter Nat Node).follow (.listed name) way = some node) :
    way.length ≤ commonLevels name := by
  induction way generalizing name with
  | nil => exact Nat.zero_le _
  | cons l way ih =>
    obtain ⟨child, hchild, hrest⟩ := Option.bind_eq_some_iff.mp h
    obtain ⟨lower, rfl, hlower⟩ := commonTable_descends (Children.mem_flatten_of_at? hchild)
    exact Nat.le_trans (Nat.succ_le_succ (ih hrest)) hlower

/-- **Edits below a shared node** are not made in place: two edits below one node at two positions
of a level are both made at the first of these positions, so that one of them is lost and the other
one is in the wrong place. -/
theorem toRoot_sharedParent :
    forkedBatch.Positional (commonTable.adapter : Adapter Nat Node) ∧
      (∀ way node,
        (commonTable.adapter : Adapter Nat Node).follow forkedBatch.root way = some node →
          way.length ≤ 3) ∧
      ∃ new s', (forkedBatch.toRoot (commonTable.adapter : Adapter Nat Node)).runWith 0 =
          (.ok (some new), s') ∧
        (commonTable.adapter : Adapter Nat Node).follow new [⟨.named "x", 0⟩, ⟨.named "x", 0⟩] =
          some (.listed "m") ∧
        (commonTable.adapter : Adapter Nat Node).follow new [⟨.named "x", 2⟩, ⟨.named "x", 0⟩] =
          some (.listed "c") ∧
        ¬ EditedInPlace (commonTable.adapter : Adapter Nat Node) forkedBatch.zippers []
          forkedBatch.root new := by
  refine ⟨forkedBatch_positional, fun way node => commonTable_follow, _, _, rfl, rfl, rfl,
    fun hplace => ?_⟩
  have hfirst : some (Node.listed "m") = some (.listed "n") :=
    hplace.edited ⟨.listed "n", [below "p" 0, below "root" 0], .replace⟩ (by simp [forkedBatch])
      [⟨.named "x", 0⟩, ⟨.named "x", 0⟩] [] rfl
  simp at hfirst

end Batch

end Arborist
