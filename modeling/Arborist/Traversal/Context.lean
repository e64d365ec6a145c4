import Arborist.Identity
import Arborist.Vars
import Arborist.Visitor
import Arborist.Zipper

/-!
# Contexts

A sequential walk keeps one **context** for every node that it has discovered: which node it is,
what was changed, its variables and accumulates, and where it hangs below its parent. All contexts
of a walk stand in one **arena**, in the order of their discovery, and refer to each other by their
place there. A `Cursor` is what a callback sees: its own context and, through the arena, the others.
-/

namespace Arborist

/-- Where a context hangs: the place of its parent in the arena, and the location below it. -/
structure Link where
  parent : Nat
  location : Location
deriving DecidableEq

/-- The **context** of a node during a sequential walk. -/
structure Context (N A : Type) {κ : Type} (β : κ → Type) where
  /-- The node as it stands. -/
  node : N
  /-- The node as it was first met. -/
  first : N
  changed : Bool := false
  deleted : Bool := false
  /-- The place of the parent in the arena, or none for the roots of the walk. -/
  parent : Option Nat := none
  /-- The location below the parent, or none for the roots of the walk. -/
  location : Option Location := none
  vars : Vars β := .empty
  /-- The accumulate with which the node was last reached. -/
  current : A
  /-- The accumulate that the node set since. -/
  next : Option A := none
  /-- The contexts of the children, once they are known. -/
  children : Option (Children Nat) := none
  /-- The callback with which the node was last reached. -/
  phase : Option Phase := none

variable {N A κ : Type} {β : κ → Type}

/-- The context of a node that was just discovered. -/
def Context.discover (node : N) (parent : Option Nat) (location : Option Location)
    (accumulate : A) : Context N A β :=
  { node, first := node, parent, location, current := accumulate }

/-- Where a context hangs, if it has both a parent and a location. The contexts of a walk have both or
neither. -/
def Context.link (c : Context N A β) : Option Link :=
  match c.parent, c.location with
  | some parent, some location => some ⟨parent, location⟩
  | _, _ => none

/-- The accumulate that is handed on: the one that was set, else the one that came in. -/
def Context.handedOn (c : Context N A β) : A :=
  c.next.getD c.current

/-- All contexts of a walk. -/
abbrev Arena (N A : Type) {κ : Type} (β : κ → Type) := Array (Context N A β)

/-- Follows links upwards, for at most the given number of steps. -/
def Arena.climb (arena : Arena N A β) : Nat → Option Link → List (Location × Context N A β)
  | 0, _ => []
  | _ + 1, none => []
  | n + 1, some link =>
    match arena[link.parent]? with
    | some c => (link.location, c) :: climb arena n c.link
    | none => []

/-- The **ancestors** of a context, nearest first, each with the location below it. A chain of links
leads from later contexts to earlier ones, so it is never longer than the arena. -/
def Arena.ancestors (arena : Arena N A β) (c : Context N A β) : List (Location × Context N A β) :=
  arena.climb arena.size c.link

/-- The way from a context to the root, nearest crumb first. -/
def Arena.crumbs (arena : Arena N A β) (c : Context N A β) : List (Crumb N) :=
  (arena.ancestors c).map fun (location, above) => ⟨above.node, location⟩

/-- Where a context stands, in words. -/
def Arena.place (arena : Arena N A β) (c : Context N A β) : String :=
  Location.place ((arena.ancestors c).map Prod.fst).reverse

/-- The value of a variable on the nearest ancestor that has one, else among the root variables. -/
def Arena.inherited? [DecidableEq κ] (arena : Arena N A β) (rootVars : Vars β)
    (c : Context N A β) (k : κ) : Option (β k) :=
  match (arena.ancestors c).findSome? fun (_, above) => above.vars.get? k with
  | some v => some v
  | none => rootVars.get? k

/-! ### What a callback sees -/

/-- A callback's view of the walk. -/
structure Cursor (N A : Type) {κ : Type} (β : κ → Type) [Identified N] where
  /-- The context that is being visited. -/
  here : Context N A β
  arena : Arena N A β
  rootVars : Vars β
  /-- The identities of the nodes that have been entered. -/
  visited : List (Identity N)

namespace Cursor

variable [Identified N]

/-- The context of the parent, or none for a root of the walk. -/
def parent? (cursor : Cursor N A β) : Option (Context N A β) :=
  cursor.here.link.bind fun link => cursor.arena[link.parent]?

/-- The nodes above, nearest first. -/
def parents (cursor : Cursor N A β) : List N :=
  (cursor.arena.ancestors cursor.here).map fun (_, above) => above.node

/-- The way to the root, nearest crumb first. -/
def crumbs (cursor : Cursor N A β) : List (Crumb N) :=
  cursor.arena.crumbs cursor.here

/-- Whether this node has been entered before. -/
def isVisited (cursor : Cursor N A β) : Bool :=
  cursor.visited.contains (identity cursor.here.first)

/-- The contexts of the children, which are there to see while the node is being left. -/
def children? (cursor : Cursor N A β) : Option (Children (Context N A β)) :=
  if cursor.here.phase = some .leave then
    cursor.here.children.map fun ids => ids.filterMap fun id => cursor.arena[id]?
  else
    none

end Cursor

end Arborist
