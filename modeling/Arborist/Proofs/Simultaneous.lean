import Arborist.Graph
import Arborist.Proofs.Splicing
import Mathlib

/-!
# Simultaneous editing

What a batch of edits **means**, said without rounds, groups and shifts: all edits are made at once,
against the tree as it was. Every list of children has each of its children replaced by the nodes
put in front of it, the child as it was edited unless it is deleted, and the nodes put behind it.

* A position is given by its **way**, the identities and locations passed on the way up to the root.
* `edited` is the meaning of a batch at a position. It is a **sketch**: which nodes stay as they are,
  and which are rebuilt from which children. A rebuilt node gets an identity that no description can
  foretell, so a sketch fixes a tree up to the identities of rebuilt nodes (`Sketch.Shows`).
* `Admissible` and `Coherent` collect what is asked of a batch for its edits not to contradict each
  other.
-/

namespace Arborist

variable {σ N : Type}

/-! ### Sketches -/

/-- A **sketch** of a tree that is built from the nodes of others. -/
inductive Sketch (N : Type) where
  /-- The node itself, with everything below it. -/
  | keep (node : N)
  /-- The node rebuilt with other children. -/
  | rebuild (node : N) (children : Children (Sketch N))

/-- The roles of some children, and how many there are under each. -/
def Children.shape (c : Children N) : List (Role × Nat) :=
  c.groups.map fun g => (g.1, g.2.length)

/-- `new` is a rebuilt `node`, and its children are those it was rebuilt with. -/
def Adapter.Rebuilds (adapter : Adapter σ N) (node : N) (c : Children N) (new : N) : Prop :=
  (∃ s s', (adapter.rebuild node c).runWith s = (.ok new, s')) ∧ adapter.children new = c

/-- A node **shows** a sketch: it is the node that is kept, or it was rebuilt from the given node, and
its children show the sketches below, role by role and from left to right. -/
inductive Sketch.Shows (adapter : Adapter σ N) : Sketch N → N → Prop where
  | keep (node : N) : Shows adapter (.keep node) node
  | rebuild {node new : N} {sketches : Children (Sketch N)} {c : Children N}
      (rebuilt : adapter.Rebuilds node c new) (shape : sketches.shape = c.shape)
      (below : List.Forall₂ (Shows adapter) sketches.flatten c.flatten) :
      Shows adapter (.rebuild node sketches) new

theorem Sketch.shows_map_keep (adapter : Adapter σ N) (nodes : List N) :
    List.Forall₂ (Sketch.Shows adapter) (nodes.map .keep) nodes := by
  induction nodes with
  | nil => exact .nil
  | cons n nodes ih => exact .cons (.keep n) ih

theorem forall₂_flatten_mapIdx {α β γ : Type} {R : β → γ → Prop} {list : List α}
    {f : Nat → α → List β} {g : Nat → α → List γ}
    (h : ∀ i a, list[i]? = some a → List.Forall₂ R (f i a) (g i a)) :
    List.Forall₂ R (list.mapIdx f).flatten (list.mapIdx g).flatten := by
  induction list generalizing f g with
  | nil => exact .nil
  | cons a list ih =>
    simp only [List.mapIdx_cons, List.flatten_cons]
    exact List.rel_append (h 0 a rfl) (ih fun i a' ha => h (i + 1) a' (by simpa using ha))

/-- Children that are spread in two ways have related results if each child has. -/
theorem Children.spread_related {M L : Type} {R : M → L → Prop} {c : Children N}
    (hc : c.roles.Nodup) {f : Location → N → List M} {g : Location → N → List L}
    (h : ∀ l child, c.at? l = some child → List.Forall₂ R (f l child) (g l child)) :
    (c.spread f).shape = (c.spread g).shape ∧
      List.Forall₂ R (c.spread f).flatten (c.spread g).flatten := by
  have hgroup : ∀ p ∈ c.groups, List.Forall₂ R
      (p.2.mapIdx fun i child => f ⟨p.1, i⟩ child).flatten
      (p.2.mapIdx fun i child => g ⟨p.1, i⟩ child).flatten := by
    intro p hp
    refine forall₂_flatten_mapIdx fun i child hchild => h _ _ ?_
    rw [at?, get?_of_mem hc (show (p.1, p.2) ∈ c.groups from hp)]
    exact hchild
  obtain ⟨groups⟩ := c
  clear hc h
  simp only [spread, shape, flatten, List.flatMap_map, List.map_map]
  induction groups with
  | nil => exact ⟨rfl, .nil⟩
  | cons p groups ih =>
    obtain ⟨hshape, hflat⟩ := ih fun q hq => hgroup q (List.mem_cons_of_mem _ hq)
    have hp := hgroup p List.mem_cons_self
    refine ⟨?_, ?_⟩
    · rw [List.map_cons, List.map_cons, hshape]
      simp only [Function.comp, hp.length_eq]
    · simp only [List.flatMap_cons]
      exact List.rel_append hp hflat

/-- An adapter is **lawful** at a node: the roles of the node are distinct, and rebuilding it with
children under the same roles succeeds and gives a node that has these children. -/
structure Adapter.LawfulAt (adapter : Adapter σ N) (node : N) : Prop where
  roles_nodup : (adapter.children node).roles.Nodup
  rebuild : ∀ (c : Children N) (s : σ), c.roles = (adapter.children node).roles →
    ∃ new s', (adapter.rebuild node c).runWith s = (.ok new, s') ∧ adapter.children new = c

namespace Children

/-- The first group under a role is the one that is found. -/
theorem lookup_append_cons {r : Role} {before : List (Role × List N)}
    (hfresh : ∀ p ∈ before, p.1 ≠ r) (list : List N) (rest : List (Role × List N)) :
    lookup r (before ++ (r, list) :: rest) = some list := by
  induction before with
  | nil => simp [lookup]
  | cons p before ih =>
    have htail := ih fun q hq => hfresh q (List.mem_cons_of_mem _ hq)
    simp [lookup, hfresh p List.mem_cons_self, htail]

/-- The first group under a role is the one that is replaced. -/
theorem insertGroup_append_cons {r : Role} {before : List (Role × List N)}
    (hfresh : ∀ p ∈ before, p.1 ≠ r) (list old : List N) (rest : List (Role × List N)) :
    insertGroup r list (before ++ (r, old) :: rest) = before ++ (r, list) :: rest := by
  induction before with
  | nil => simp [insertGroup]
  | cons p before ih =>
    have htail := ih fun q hq => hfresh q (List.mem_cons_of_mem _ hq)
    simp [insertGroup, hfresh p List.mem_cons_self, htail]

end Children

namespace Graph.Table

theorem replaceAll_append (name : String) (before old new : List (Role × List Node))
    (hroles : old.map Prod.fst = new.map Prod.fst)
    (hnodup : ((before ++ new).map Prod.fst).Nodup) :
    replaceAll name ⟨before ++ old⟩ new = .ok ⟨before ++ new⟩ := by
  induction new generalizing before old with
  | nil => rw [List.map_eq_nil_iff.mp hroles, replaceAll]
  | cons g new ih =>
    obtain ⟨r, list⟩ := g
    obtain ⟨⟨r', was⟩, old, rfl, hr, hrest⟩ := List.map_eq_cons_iff.mp hroles
    obtain rfl : r' = r := hr
    have hfresh : ∀ p ∈ before, p.1 ≠ r' := by
      intro p hp heq
      rw [List.map_append, List.nodup_append] at hnodup
      exact hnodup.2.2 p.1 (List.mem_map_of_mem hp) r' (by simp) heq
    have htail := ih (before ++ [(r', list)]) old hrest (by simpa using hnodup)
    simp only [List.append_assoc, List.singleton_append] at htail
    rw [replaceAll, Children.get?, Children.lookup_append_cons hfresh]
    simp only [Children.insert, Children.insertGroup_append_cons hfresh]
    exact htail

/-- A table is **lawful** at the nodes it does not reject. -/
theorem lawfulAt [Supply σ] (t : Table) (node : Node) (hnodup : (t.children node).roles.Nodup)
    (haccepted : node.label ∉ t.rejected) : (t.adapter : Adapter σ Node).LawfulAt node where
  roles_nodup := hnodup
  rebuild c s hroles := by
    have hnew : c.roles.Nodup := by
      rw [hroles]
      exact hnodup
    have hall : replaceAll node.label (t.children node) c.groups = .ok c :=
      replaceAll_append node.label [] (t.children node).groups c.groups hroles.symm hnew
    refine ⟨.built (Supply.fresh s).1 node.label c, (Supply.fresh s).2, ?_, rfl⟩
    change (rebuild t node c).runWith s = _
    rw [rebuild, if_neg haccepted, hall]
    rfl

end Graph.Table

/-! ### Ways -/

variable [Identified N]

/-- A **way** up to the root: the nodes above by identity, and where below them it comes from. -/
abbrev Way (N : Type) [Identified N] := List (Identity N × Location)

/-- One step of a way. -/
def Crumb.step (crumb : Crumb N) : Identity N × Location :=
  (identity crumb.node, crumb.location)

/-- The way that crumbs describe. -/
def Crumb.way (crumbs : List (Crumb N)) : Way N :=
  crumbs.map Crumb.step

/-- The way to the position of an edit. -/
def Zipper.way (z : Zipper N) : Way N :=
  Crumb.way z.crumbs

/-- Whether a way leads through the node of an identity at a position. -/
def Way.passes (id : Identity N) (position : Way N) : Way N → Bool
  | [] => false
  | (i, _) :: above => (i = id ∧ above = position) || passes id position above

@[simp] theorem Crumb.way_nil : Crumb.way ([] : List (Crumb N)) = [] := rfl

@[simp] theorem Crumb.way_cons (crumb : Crumb N) (crumbs : List (Crumb N)) :
    Crumb.way (crumb :: crumbs) = (identity crumb.node, crumb.location) :: Crumb.way crumbs := rfl

@[simp] theorem Crumb.length_way (crumbs : List (Crumb N)) :
    (Crumb.way crumbs).length = crumbs.length :=
  List.length_map _

@[simp] theorem Zipper.length_way (z : Zipper N) : z.way.length = z.depth :=
  Crumb.length_way z.crumbs

theorem Way.passes_iff {id : Identity N} {position way : Way N} :
    Way.passes id position way = true ↔ ∃ l, (id, l) :: position <:+ way := by
  induction way with
  | nil => simp [passes]
  | cons step above ih =>
    obtain ⟨i, m⟩ := step
    simp only [passes, Bool.or_eq_true, decide_eq_true_eq, ih, List.suffix_cons_iff, List.cons.injEq,
      Prod.mk.injEq]
    constructor
    · rintro (⟨rfl, rfl⟩ | ⟨l, hl⟩)
      · exact ⟨m, .inl ⟨⟨rfl, rfl⟩, rfl⟩⟩
      · exact ⟨l, .inr hl⟩
    · rintro ⟨l, ⟨⟨rfl, -⟩, rfl⟩ | hl⟩
      · exact .inl ⟨rfl, rfl⟩
      · exact .inr ⟨l, hl⟩

namespace Batch

/-! ### All edits at once -/

/-- The nodes that the edits of one kind carry at a position, in the order of the batch. -/
def carried (zs : List (Zipper N)) (way : Way N) (edit : Edit) : List N :=
  (zs.filter fun z => z.way = way ∧ z.edit = edit).map Zipper.node

/-- The node that stands at a position, once it is replaced by what the batch puts there. -/
def standing (zs : List (Zipper N)) (way : Way N) (node : N) : N :=
  (carried zs way .replace).headD node

/-- Whether the batch edits something below a node at a position. -/
def editsBelow (zs : List (Zipper N)) (node : N) (way : Way N) : Bool :=
  zs.any fun z => Way.passes (identity node) way z.way

/-- What stands in place of a child: the nodes put in front of it, the child as it was edited unless
it is deleted, and the nodes put behind it. -/
def surrounded (zs : List (Zipper N)) (way : Way N) (child : Sketch N) : List (Sketch N) :=
  (carried zs way .insertBefore).map .keep ++
    (if (carried zs way .delete).isEmpty then [child] else []) ++
    (carried zs way .insertAfter).map .keep

/-- **All edits at once**: the node at a position after the edits of that position and of everything
below it, down to some number of levels. Where nothing is edited below, the node stays. -/
def edited (adapter : Adapter σ N) (zs : List (Zipper N)) : Nat → Way N → N → Sketch N
  | 0, way, node => .keep (standing zs way node)
  | levels + 1, way, node =>
    let base := standing zs way node
    if editsBelow zs base way then
      .rebuild base ((adapter.children base).spread fun l child =>
        let here := (identity base, l) :: way
        surrounded zs here (edited adapter zs levels here child))
    else
      .keep base

/-- The tree after all edits at once, or none if the root is deleted. There are no edits below the
deepest one, so `height` is as far down as there is anything to do. -/
def simultaneous (adapter : Adapter σ N) (b : Batch N) : Option (Sketch N) :=
  if (carried b.zippers [] .delete).isEmpty then
    some (edited adapter b.zippers (height b.zippers) [] b.root)
  else
    none

/-! ### Batches whose edits go together -/

/-- The crumbs lead **to a position**: of the tree, or below a position that the batch replaces, by
way of any node that may have stood there meanwhile. The node is the one that was there before any
edit of that position. -/
inductive Reaches (adapter : Adapter σ N) (b : Batch N) : List (Crumb N) → N → Prop where
  | root : Reaches adapter b [] b.root
  | down {crumbs : List (Crumb N)} {node child : N} {l : Location}
      (above : Reaches adapter b crumbs node) (found : (adapter.children node).at? l = some child) :
      Reaches adapter b (⟨node, l⟩ :: crumbs) child
  | through {crumbs : List (Crumb N)} {node other child : N} {l : Location} {z : Zipper N}
      (above : Reaches adapter b crumbs node) (mem : z ∈ b.zippers) (edit : z.edit = .replace)
      (here : z.crumbs = crumbs) (found : (adapter.children other).at? l = some child) :
      Reaches adapter b (⟨other, l⟩ :: crumbs) child

/-- The edits of a batch are **admissible**: each of them makes sense where it is, and the lists of
children stay within machine words. -/
structure Admissible (adapter : Adapter σ N) (b : Batch N) : Prop where
  /-- Every edit is at a position of the tree, or below a position that the batch replaces. -/
  reached : ∀ z ∈ b.zippers, ∃ node, b.Reaches adapter z.crumbs node
  /-- A position is replaced or deleted at most once. -/
  once : b.zippers.Pairwise fun y z =>
    y.edit.inserts = false → z.edit.inserts = false → y.way ≠ z.way
  /-- A node that edits run through below a replaced position differs in its identity from the
  replacement, unless it is the replacement. -/
  fresh : ∀ z ∈ b.zippers, z.edit = .replace → ∀ y ∈ b.zippers, ∀ c : Crumb N,
    c :: z.crumbs <:+ y.crumbs → identity c.node = identity z.node → c.node = z.node
  /-- Nothing is put beside the root. -/
  rootAlone : ∀ z ∈ b.zippers, z.crumbs = [] → z.edit.inserts = false
  /-- A deletion of the root is the only edit. -/
  rootDeleted : ∀ z ∈ b.zippers, z.crumbs = [] → z.edit = .delete → b.zippers = [z]
  /-- Below a replaced position the edits run all through the same node. -/
  sided : ∀ z ∈ b.zippers, z.edit = .replace → ∀ x ∈ b.zippers, ∀ y ∈ b.zippers,
    ∀ c d : Crumb N, c :: z.crumbs <:+ x.crumbs → d :: z.crumbs <:+ y.crumbs →
    identity c.node = identity d.node
  /-- The adapter is lawful at the nodes that edits run through. -/
  lawful : ∀ z ∈ b.zippers, ∀ c ∈ z.crumbs, adapter.LawfulAt c.node
  /-- No list of children outgrows a signed machine word. -/
  fits : ∀ z ∈ b.zippers, ∀ c ∈ z.crumbs, ∀ r list, (adapter.children c.node).get? r = some list →
    list.length + b.zippers.length < 9223372036854775808

/-- The edits of a batch are **coherent**: they are admissible, and on one level no node is edited
below at two positions. In a tree that has every node at one position only, this is about the nodes
below replacements. -/
structure Coherent (adapter : Adapter σ N) (b : Batch N) : Prop extends Admissible adapter b where
  /-- On one level edits run through a node at one position only. -/
  apart : ∀ y ∈ b.zippers, ∀ z ∈ b.zippers, ∀ (c d : Crumb N) (above beyond : List (Crumb N)),
    c :: above <:+ y.crumbs → d :: beyond <:+ z.crumbs → above.length = beyond.length →
    identity c.node = identity d.node → c.node = d.node ∧ above = beyond

end Batch

end Arborist
