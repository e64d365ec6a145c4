import Arborist.Adapter
import Arborist.Zipper.Splice

/-!
# From a zipper to a new root

`Zipper.moveUp` applies an edit to the parent and gives the edit that replaces the parent by the
rebuilt node. Only the nearest ancestor sees the edit itself; every ancestor above it has its child
replaced, so `Zipper.toRoot` goes up by recursion on the crumbs.
-/

namespace Arborist

namespace Error

/-- An edit of the root was asked to move up. -/
def rootHasNoParent : Error :=
  violation "The root node has no parent to move up to"

/-- A node was to be put beside the root. -/
def besideRoot : Error :=
  violation "Nodes can't be inserted next to the root node"

end Error

variable {σ N : Type}

/-- Applies an edit below a crumb's node and rebuilds that node. -/
def Crumb.graft (adapter : Adapter σ N) (crumb : Crumb N) (edit : Edit) (node : N) :
    Attempt σ N := do
  let children ← Attempt.ofExcept ((adapter.children crumb.node).splice crumb.location 0 edit node)
  adapter.rebuild crumb.node children

/-- Puts `node` below the nearest crumb and rebuilds every ancestor up to the root. -/
def Crumb.climb (adapter : Adapter σ N) (node : N) : List (Crumb N) → Attempt σ N
  | [] => pure node
  | crumb :: rest => do
    let parent ← crumb.graft adapter .replace node
    climb adapter parent rest

/-- Applies the edit to the parent: the result replaces the parent one level up. -/
def Zipper.moveUp (adapter : Adapter σ N) (z : Zipper N) : Attempt σ (Zipper N) :=
  match z.crumbs with
  | [] => throw .rootHasNoParent
  | crumb :: rest => do
    let parent ← crumb.graft adapter z.edit z.node
    pure { node := parent, crumbs := rest }

/-- Applies this edit alone and gives the new root, or none if the root itself was deleted. -/
def Zipper.toRoot (adapter : Adapter σ N) (z : Zipper N) : Attempt σ (Option N) :=
  match z.crumbs with
  | [] =>
    match z.edit with
    | .replace => pure (some z.node)
    | .delete => pure none
    | .insertBefore | .insertAfter => throw .besideRoot
  | crumb :: rest => do
    let parent ← crumb.graft adapter z.edit z.node
    let root ← Crumb.climb adapter parent rest
    pure (some root)

end Arborist
