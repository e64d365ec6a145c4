import Arborist.Identity
import Arborist.Vars
import Arborist.Visitor
import Arborist.Zipper

/-!
# Fan-out walks

In a fan-out walk every node hands its accumulate **down** to all of its children, and gets their
accumulates **back** when it is left. Nothing else runs from one sibling to the next but the set of
nodes that have been taken: a node is taken by the first way on which it is reached, and all its
other occurrences are back references. Siblings are visited from left to right, each with everything
below it, and the first failure stops the walk.

Nodes are not edited, and the walk can't be quit.
-/

namespace Arborist

namespace Error

/-- A fan-out walk was to be quit. -/
def quitInFanout (place : String) : Error :=
  violationAt place "Quit isn't supported in parallel traversals"

end Error

namespace Fanout

/-- A node that has been entered and not yet left. -/
structure Frame (N : Type) {κ : Type} (β : κ → Type) where
  node : N
  location : Option Location
  vars : Vars β

/-- The context of a node during a fan-out walk. -/
structure Branch (N A : Type) {κ : Type} (β : κ → Type) [Identified N] where
  node : N
  /-- None for the roots of the walk. -/
  location : Option Location
  /-- The nodes above, nearest first. -/
  frames : List (Frame N β)
  vars : Vars β := .empty
  rootVars : Vars β
  /-- The accumulate that came from above, or, while the node is left, the one it handed down. -/
  current : A
  /-- The accumulate that the node set since. -/
  next : Option A := none
  /-- The accumulates of the children, while the node is left. -/
  results : Option (Children A) := none
  phase : Phase := .enter
  /-- The identities of the nodes that have been taken. -/
  visited : List (Identity N)

/-- What a callback of a fan-out walk may ask for. -/
inductive Request (A : Type) {κ : Type} (β : κ → Type) where
  /-- Store a variable on this node. -/
  | setVar (key : κ) (value : β key)
  /-- Set the accumulate that is handed on. -/
  | setAccumulate (accumulate : A)

variable {σ N A κ : Type} {β : κ → Type} [Identified N]

/-! ### What a callback sees and does -/

/-- The way from a location through frames to the root, nearest crumb first. -/
def crumbsFrom : Option Location → List (Frame N β) → List (Crumb N)
  | some location, frame :: above => ⟨frame.node, location⟩ :: crumbsFrom frame.location above
  | _, _ => []

namespace Branch

/-- The accumulate that is handed on: the one that was set, else the one that came in. -/
def handedOn (b : Branch N A β) : A :=
  b.next.getD b.current

/-- The way to the root, nearest crumb first. -/
def crumbs (b : Branch N A β) : List (Crumb N) :=
  crumbsFrom b.location b.frames

/-- Where the node stands, in words. -/
def place (b : Branch N A β) : String :=
  Location.place (b.crumbs.map Crumb.location).reverse

/-- Whether this node has been taken, be it on this way or on another. -/
def isVisited (b : Branch N A β) : Bool :=
  b.visited.contains (identity b.node)

variable [DecidableEq κ]

/-- The value of a variable on the nearest node above that has one, else among the root
variables. -/
def inherited? (b : Branch N A β) (k : κ) : Option (β k) :=
  match b.frames.findSome? fun frame => frame.vars.get? k with
  | some v => some v
  | none => b.rootVars.get? k

/-- Carries out a request. -/
def perform : Request A β → Attempt (Branch N A β) Unit
  | .setVar key value => modify fun b => { b with vars := b.vars.insert key value }
  | .setAccumulate accumulate => modify fun b => { b with next := some accumulate }

end Branch

/-! ### The walk -/

/-- What a fan-out walk starts from. -/
structure Plan (N A : Type) {κ : Type} (β : κ → Type) where
  /-- The children of a node. -/
  children : N → Children N
  /-- The accumulate with which every root is entered. -/
  initial : A
  /-- Variables that every node inherits. -/
  rootVars : Vars β := .empty

/-- The visitors of fan-out walks. -/
abbrev FanoutVisitor (σ N A : Type) {κ : Type} (β : κ → Type) [Identified N] :=
  Visitor σ (Branch N A β) (Request A β)

/-- What all branches share: the taken nodes and the visitor's own state. -/
structure Shared (σ N : Type) [Identified N] where
  visited : List (Identity N)
  own : σ

/-- Takes a node, and tells whether it was free. -/
def take (node : N) : Walk (Shared σ N) Bool := do
  let s ← get
  if s.visited.contains (identity node) then
    pure false
  else
    set { s with visited := identity node :: s.visited }
    pure true

variable [DecidableEq κ]

/-- Runs a callback on a branch. -/
def call (b : Branch N A β) (callback : Callback σ (Branch N A β) (Request A β) Control) :
    Walk (Shared σ N) (Control × Branch N A β) :=
  fun s =>
    match callback.runOn (fun b => b) Branch.perform s.own b with
    | ((.ok control, own), b) => (.ok (control, b), { s with own })
    | ((.error e, own), _) => (.error (.failed e), { s with own })

/-- Ends a visit in which nothing may be passed over, with the accumulate that is handed on. -/
def finish (b : Branch N A β) : Control → Walk (Shared σ N) A
  | .proceed => pure b.handedOn
  | .abort => throw (.failed (.abortOutsideEnter b.place))
  | .quit => throw (.failed (.quitInFanout b.place))

/-- **Visits** a node with everything below it, down to at most `limit` levels, and gives the
accumulate that it returns. -/
def visit (plan : Plan N A β) (visitor : FanoutVisitor σ N A β) :
    Nat → List (Frame N β) → Option Location → A → N → Walk (Shared σ N) A
  | 0, _, _, _, _ => throw .exhausted
  | limit + 1, frames, location, accumulate, node => do
    let free ← take node
    let visited := (← get).visited
    let b : Branch N A β :=
      { node, location, frames, rootVars := plan.rootVars, current := accumulate, visited }
    if free then
      let (control, b) ← call b visitor.enter
      match control with
      | .abort => pure b.handedOn
      | .quit => throw (.failed (.quitInFanout b.place))
      | .proceed =>
        let children := plan.children node
        let frame : Frame N β := { node, location, vars := b.vars }
        let results ← children.located.mapM fun (below, child) =>
          visit plan visitor limit (frame :: frames) (some below) b.handedOn child
        let visited := (← get).visited
        let b : Branch N A β :=
          { b with
            current := b.handedOn, next := none, results := some (children.regroup results),
            phase := .leave, visited }
        let (control, b) ← call b visitor.leave
        finish b control
    else
      let (control, b) ← call { b with phase := .backRef } visitor.backRef
      finish b control

/-- A fan-out **walk** over everything below the roots, and the accumulate of each root. -/
def traverse (plan : Plan N A β) (visitor : FanoutVisitor σ N A β) (limit : Nat)
    (roots : List N) : Walk σ (List A) :=
  fun own =>
    match (roots.mapM (visit plan visitor limit [] none plan.initial)).runWith
        { visited := [], own } with
    | (result, s) => (result, s.own)

end Fanout

end Arborist
