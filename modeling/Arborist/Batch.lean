import Arborist.Identity
import Arborist.Zipper.Root

/-!
# Batches of edits

A **batch** collects edits of one tree, all of them made against the tree as it was. To apply them
together, `Batch.toRoot` works level by level from the deepest edits upwards:

* the edits of the deepest level are grouped by the identity of their parent;
* each group is applied to its parent in one go, in the order of the positions, and becomes the
  replacement of that parent one level up;
* where the batch itself replaces the parent's position by another node, that **replacement wins**
  and the group is dropped; where it puts the very parent there, the rebuilt parent absorbs it.

One edit is left in the end, and it is taken to the root on its own.
-/

namespace Arborist

namespace Error

/-- No edit of a batch carries the node in question. -/
def noZipperForNode : Error :=
  violation "No current zipper found for provided node"

/-- Several edits are left for the root. -/
def rootEditedTwice : Error :=
  violation "More than one edit was made to the root node"

/-- A group of edits without members. -/
def emptyGroup : Error :=
  violation "Can't move up an empty group of edits"

end Error

/-- Edits of one tree that are to be applied together. -/
structure Batch (N : Type) where
  root : N
  zippers : List (Zipper N)

variable {σ N : Type}

/-! ### One group of edits below a parent -/

/-- Edits go by index first, then by the precedence of their kind. -/
def Zipper.comesBefore (y z : Zipper N) : Bool :=
  let i := (y.location?.map Location.index).getD 0
  let j := (z.location?.map Location.index).getD 0
  i < j || (i == j && y.edit.precedence ≤ z.edit.precedence)

/-- Inserts an edit in front of the first one that it comes before. -/
def Batch.insertInOrder (z : Zipper N) : List (Zipper N) → List (Zipper N)
  | [] => [z]
  | y :: ys => if z.comesBefore y then z :: y :: ys else y :: insertInOrder z ys

/-- The edits of one parent in the order in which they are applied; equal ones keep their order. -/
def Batch.inOrder : List (Zipper N) → List (Zipper N)
  | [] => []
  | z :: zs => insertInOrder z (inOrder zs)

/-- The shift of a role grows by the edits that were made in it. -/
def Batch.grow (shift : Role → Int) (role : Role) (edit : Edit) : Role → Int :=
  fun r => if r = role then shift r + edit.growth else shift r

/-- Splices edits one after the other, each moved by the shift of its role so far. -/
def Batch.spliceAll (c : Children N) (shift : Role → Int) :
    List (Zipper N) → Except Error (Children N)
  | [] => .ok c
  | z :: zs =>
    match z.location? with
    | none => .error .rootHasNoParent
    | some location => do
      let c ← c.splice location (shift location.role) z.edit z.node
      spliceAll c (grow shift location.role z.edit) zs

/-- Applies all edits of one parent and gives the replacement of that parent. -/
def Batch.moveUpGroup (adapter : Adapter σ N) (group : List (Zipper N)) :
    Attempt σ (Zipper N) :=
  match inOrder group with
  | [] => throw .emptyGroup
  | first :: rest =>
    match first.crumbs with
    | [] => throw .rootHasNoParent
    | crumb :: above => do
      let children ← Attempt.ofExcept
        (spliceAll (adapter.children crumb.node) (fun _ => 0) (first :: rest))
      let parent ← adapter.rebuild crumb.node children
      pure { node := parent, crumbs := above }

/-! ### One level -/

variable [Identified N]

/-- Adds an edit to the group of its parent, or starts a new group at the end. -/
def Batch.addToGroup (parent : Identity N) (z : Zipper N) :
    List (Identity N × List (Zipper N)) → List (Identity N × List (Zipper N))
  | [] => [(parent, [z])]
  | (p, group) :: rest =>
    if p = parent then (p, group ++ [z]) :: rest else (p, group) :: addToGroup parent z rest

/-- Groups edits by the identity of their parent, in the order in which parents first occur. -/
def Batch.groupByParent (zippers : List (Zipper N)) : List (Identity N × List (Zipper N)) :=
  zippers.foldl (fun groups z =>
    match z.parent? with
    | some parent => addToGroup (identity parent) z groups
    | none => groups) []

/-- Whether an edit replaces the node at the position that `crumbs` lead to. -/
def Zipper.replacesAt (z : Zipper N) (crumbs : List (Crumb N)) : Bool :=
  z.edit == .replace && z.depth == crumbs.length &&
    match z.crumbs.head?, crumbs.head? with
    | some own, some other => own.location == other.location && sameNode own.node other.node
    | none, none => true
    | _, _ => false

/-- Moves the groups of a level up, one after the other, and gives what is left of the edits above
the level together with the moved ones. A group whose parent's position is replaced by another node
is dropped, and a replacement by the parent itself is taken out when its group moves up. -/
def Batch.settle (adapter : Adapter σ N) :
    List (Identity N × List (Zipper N)) → List (Zipper N) →
      Attempt σ (List (Zipper N) × List (Zipper N))
  | [], rest => pure (rest, [])
  | (parent, group) :: groups, rest =>
    let position := (group.head?.map fun z => z.crumbs.tail).getD []
    match rest.find? (·.replacesAt position) with
    | some z =>
      if identity z.node = parent then do
        let moved ← moveUpGroup adapter group
        let (rest, others) ← settle adapter groups (rest.eraseP (·.replacesAt position))
        pure (rest, moved :: others)
      else
        settle adapter groups rest
    | none => do
      let moved ← moveUpGroup adapter group
      let (rest, others) ← settle adapter groups rest
      pure (rest, moved :: others)

/-- One **round**: the edits at `depth` are replaced by edits one level up. -/
def Batch.round (adapter : Adapter σ N) (depth : Nat) (zippers : List (Zipper N)) :
    Attempt σ (List (Zipper N)) := do
  let (deepest, rest) := zippers.partition (·.depth == depth)
  let (rest, moved) ← settle adapter (groupByParent deepest) rest
  pure (rest ++ moved)

/-! ### All levels -/

/-- The depth of the deepest edit. -/
def Batch.height (zippers : List (Zipper N)) : Nat :=
  zippers.foldr (fun z h => max z.depth h) 0

/-- Runs rounds from `depth` upwards until at most one edit is left. -/
def Batch.reconcile (adapter : Adapter σ N) :
    Nat → List (Zipper N) → Attempt σ (List (Zipper N))
  | 0, zippers => if zippers.length ≤ 1 then pure zippers else throw .rootEditedTwice
  | depth + 1, zippers =>
    if zippers.length ≤ 1 then pure zippers
    else do
      let zippers ← round adapter (depth + 1) zippers
      reconcile adapter depth zippers

namespace Batch

/-- The number of edits. -/
def size (b : Batch N) : Nat :=
  b.zippers.length

/-- The nodes that the edits carry. -/
def nodes (b : Batch N) : List N :=
  b.zippers.map Zipper.node

/-- The first edit that carries `node`. -/
def zipperFor? (b : Batch N) (node : N) : Option (Zipper N) :=
  b.zippers.find? (sameNode node ·.node)

/-- Adds an edit at the end. -/
def add (b : Batch N) (z : Zipper N) : Batch N :=
  { b with zippers := b.zippers ++ [z] }

/-- Takes other edits for the same tree. -/
def withZippers (b : Batch N) (zippers : List (Zipper N)) : Batch N :=
  { b with zippers }

/-- Swaps the node of the first edit that `p` accepts; none if there is no such edit. -/
def swapFirst (p : Zipper N → Bool) (node : N) : List (Zipper N) → Option (List (Zipper N))
  | [] => none
  | z :: zs => if p z then some (z.withNode node :: zs) else (swapFirst p node zs).map (z :: ·)

/-- Lets the first edit that carries `node` carry `replacement` instead. -/
def replaceFor (b : Batch N) (node replacement : N) : Except Error (Batch N) :=
  match swapFirst (sameNode node ·.node) replacement b.zippers with
  | some zippers => .ok { b with zippers }
  | none => .error .noZipperForNode

/-- Applies all edits and gives the new root, or none if the root itself was deleted. -/
def toRoot (adapter : Adapter σ N) (b : Batch N) : Attempt σ (Option N) := do
  match ← reconcile adapter (height b.zippers) b.zippers with
  | z :: _ => z.toRoot adapter
  | [] => pure (some b.root)

end Batch

end Arborist
