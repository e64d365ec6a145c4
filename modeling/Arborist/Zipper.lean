import Arborist.Role

/-!
# Zippers

A **zipper** is one pending edit of a tree: a node, the **crumbs** that lead from the edited
position up to the root, and what to do at that position. Zippers are plain values; the tree a
zipper points into is never changed.
-/

namespace Arborist

/-- One step of the way from a node towards the root: the node above, and where below it the way
comes from. -/
structure Crumb (N : Type) where
  node : N
  location : Location

/-- What to do at the position of a zipper. -/
inductive Edit where
  /-- Put the zipper's node in place of the node at the position. -/
  | replace
  /-- Remove the node at the position. -/
  | delete
  /-- Put the zipper's node in front of the node at the position. -/
  | insertBefore
  /-- Put the zipper's node behind the node at the position. -/
  | insertAfter
deriving DecidableEq

/-- Whether an edit adds a node. -/
def Edit.inserts : Edit → Bool
  | .insertBefore | .insertAfter => true
  | .replace | .delete => false

/-- The order in which edits of one position are applied. -/
def Edit.precedence : Edit → Nat
  | .replace => 0
  | .insertBefore => 1
  | .delete => 2
  | .insertAfter => 3

/-- By how many places an edit moves the children behind it. -/
def Edit.growth : Edit → Int
  | .replace => 0
  | .delete => -1
  | .insertBefore | .insertAfter => 1

/-- A single pending **edit** of a tree, with the nearest crumb first. -/
structure Zipper (N : Type) where
  node : N
  crumbs : List (Crumb N)
  edit : Edit := .replace

namespace Zipper

variable {N : Type}

/-- The number of ancestors above the edited position. -/
def depth (z : Zipper N) : Nat :=
  z.crumbs.length

/-- The node below which the edit is made, unless the root is edited. -/
def parent? (z : Zipper N) : Option N :=
  z.crumbs.head?.map Crumb.node

/-- The edited position within the parent. -/
def location? (z : Zipper N) : Option Location :=
  z.crumbs.head?.map Crumb.location

/-- The same edit with another node. -/
def withNode (z : Zipper N) (node : N) : Zipper N :=
  { z with node }

/-- The edit that removes the node at this position. -/
def delete (z : Zipper N) : Zipper N :=
  { z with edit := .delete }

/-- The edit that puts `node` in front of this position. -/
def insertBefore (z : Zipper N) (node : N) : Zipper N :=
  { z with node, edit := .insertBefore }

/-- The edit that puts `node` behind this position. -/
def insertAfter (z : Zipper N) (node : N) : Zipper N :=
  { z with node, edit := .insertAfter }

end Zipper

end Arborist
