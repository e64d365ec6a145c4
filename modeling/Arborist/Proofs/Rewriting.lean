import Arborist.Proofs.Descent
import Arborist.Proofs.Simultaneous

/-!
# Rewriting in one pass

A transformation said as a **recursive rewrite**, without a walk that records edits and without a
batch that applies them: every node is rewritten into a list of nodes, which stands in its place
among its siblings.

* A `Draft` is what the callbacks for a node have asked for so far: the node as it stands, and what
  is put in front of it and behind it.
* `rewrite` enters a node, rewrites its children from left to right, leaves the node, and yields
  what was put in front of it, the node unless it was deleted, and what was put behind it. A node
  that was given while leaving is yielded as it is; any other node is rebuilt from what its children
  yield, if something below it was touched.
* Once a callback quits, nothing else is called back for: what was not reached yet stays.
-/

namespace Arborist

variable {σ N A κ : Type} {β : κ → Type}

/-! ### Drafts -/

/-- What was asked for at a node. -/
structure Draft (N A : Type) {κ : Type} (β : κ → Type) where
  here : Facts N A β
  /-- What is put in front of the node. -/
  before : List N := []
  /-- What is put behind the node. -/
  after : List N := []
  /-- The node that was last given by this callback. -/
  given : Option N := none
  /-- The nodes that this callback supplied. -/
  supplied : List N := []

namespace Draft

variable (crumbs : List (Crumb N))

/-- Goes on with another node. -/
def replace (node : N) : Attempt (Draft N A β) Unit := do
  let d ← get
  if d.here.deleted then
    throw (.changeOfDeleted (Crumb.place crumbs))
  else
    set { d with
      here := { d.here with node, changed := true }
      given := some node
      supplied := d.supplied ++ [node] }

/-- Deletes the node. -/
def remove : Attempt (Draft N A β) Unit := do
  let d ← get
  if d.here.deleted then
    throw (.deletedTwice (Crumb.place crumbs))
  else if d.here.changed then
    throw (.deleteOfChanged (Crumb.place crumbs))
  else
    set { d with here := { d.here with deleted := true } }

/-- Puts a node in front of this one. -/
def insertBefore (node : N) : Attempt (Draft N A β) Unit := do
  let d ← get
  if d.here.location.isNone then
    throw (.besideRootAt (Crumb.place crumbs))
  else
    set { d with before := d.before ++ [node], supplied := d.supplied ++ [node] }

/-- Puts a node behind this one. -/
def insertAfter (node : N) : Attempt (Draft N A β) Unit := do
  let d ← get
  if d.here.location.isNone then
    throw (.besideRootAt (Crumb.place crumbs))
  else
    set { d with after := d.after ++ [node], supplied := d.supplied ++ [node] }

/-- Carries out a request. Of the requests that edit, a rewrite knows those that are recorded. -/
def perform [DecidableEq κ] : Request N A β → Attempt (Draft N A β) Unit
  | .setVar key value =>
    modify fun d => { d with here := { d.here with vars := d.here.vars.insert key value } }
  | .setAccumulate accumulate =>
    modify fun d => { d with here := { d.here with next := some accumulate } }
  | .change _ => pure ()
  | .delete => pure ()
  | .replace node => replace crumbs node
  | .remove => remove crumbs
  | .insertBefore node => insertBefore crumbs node
  | .insertAfter node => insertAfter crumbs node

end Draft

/-! ### The rewrite -/

/-- What has become of a node. -/
structure Rewritten (N A : Type) {κ : Type} (β : κ → Type) where
  here : Facts N A β
  /-- What stands in its place. -/
  yield : List (Sketch N)
  /-- Whether anything was asked for at the node or below it. -/
  touched : Bool
  /-- Whether a callback has quit. -/
  halted : Bool
  /-- Whether the node was deleted while it was being left. -/
  deletedLeaving : Bool := false

/-- A node that was not reached stays. -/
def Rewritten.unreached (met : Facts N A β) : Rewritten N A β where
  here := met
  yield := [.keep met.node]
  touched := false
  halted := false

/-- What becomes of a node for which `node` is yielded unless it was deleted. -/
def Draft.rewritten (d : Draft N A β) (node : Sketch N) (touchedBelow halted : Bool) :
    Rewritten N A β where
  here := d.here
  yield := d.before.map .keep ++ (if d.here.deleted then [] else [node]) ++ d.after.map .keep
  touched := touchedBelow || d.here.changed || d.here.deleted || !d.before.isEmpty ||
    !d.after.isEmpty
  halted

/-- What becomes of a node that was `entered` and then left: a node that was given while leaving is
yielded as it is. -/
def Draft.left (d entered : Draft N A β) (node : Sketch N) (touchedBelow halted : Bool) :
    Rewritten N A β :=
  { d.rewritten (d.given.elim node .keep) touchedBelow halted with
    deletedLeaving := d.here.deleted && !entered.here.deleted }

namespace Traversal

variable [Identified N] [DecidableEq κ]

/-- What a rewrite threads through: what the callbacks can see, and all nodes that they supplied. -/
structure Progress (σ N A : Type) [Identified N] where
  own : σ
  visited : List (Identity N) := []
  accumulate : A
  supplied : List N := []

/-- A node was met that has the given identity. -/
def Progress.meet (p : Progress σ N A) (id : Identity N) : Progress σ N A :=
  { p with visited := id :: p.visited }

/-- Calls back for a node, and gives what the callback said and the draft then. -/
def revise (rootVars : Vars β) (visitor : SightVisitor σ N A β) (phase : Phase)
    (above : List (Facts N A β)) (below : Option (Children (Facts N A β))) (d : Draft N A β)
    (p : Progress σ N A) : Except Stop (Control × Draft N A β) × Progress σ N A :=
  let start := { d with
    here := { d.here with current := p.accumulate, next := none, phase := some phase }
    given := none
    supplied := [] }
  let sight := fun d : Draft N A β =>
    { here := d.here, above, below, rootVars, visited := p.visited : Sight N A β }
  match (visitor.on phase).runOn sight (Draft.perform (Facts.crumbs d.here.location above)) p.own
      start with
  | ((.ok control, own), d) =>
    (.ok (control, d),
      { p with own, accumulate := d.here.handedOn, supplied := p.supplied ++ d.supplied })
  | ((.error e, own), _) => (.error (.failed e), { p with own })

/-- Rewrites nodes one after the other, until a callback quits. -/
def rewriteEach
    (rewriteOne : Facts N A β → Progress σ N A →
      Except Stop (Rewritten N A β) × Progress σ N A) :
    List (Facts N A β) → Progress σ N A →
      Except Stop (List (Rewritten N A β)) × Progress σ N A
  | [], p => (.ok [], p)
  | met :: rest, p =>
    match rewriteOne met p with
    | (.error stop, p) => (.error stop, p)
    | (.ok r, p) =>
      if r.halted then (.ok (r :: rest.map .unreached), p)
      else
        match rewriteEach rewriteOne rest p with
        | (.error stop, p) => (.error stop, p)
        | (.ok rs, p) => (.ok (r :: rs), p)

/-- A node rebuilt from what its children yield, or as it is if nothing below it was touched. -/
def rebuilt (node : N) (children : Children N) (rs : List (Rewritten N A β)) : Sketch N :=
  if rs.any Rewritten.touched then
    .rebuild node ((children.regroup rs).spread fun _ r => r.yield)
  else
    .keep node

/-- Which nodes are **left**: by what the callback said that entered the node, and by whether the
node was deleted then. -/
abbrev Leaving := Control → Bool → Bool

/-- A node is left if the callback that entered it said to go on as usual. -/
def Leaving.usual : Leaving :=
  fun control _ => control = .proceed

/-- Leaves a node whose children have become `rs`. -/
def rewriteLeft (plan : Plan N A β) (visitor : SightVisitor σ N A β) (above : List (Facts N A β))
    (entered : Draft N A β) (children : Children N) (rs : List (Rewritten N A β))
    (p : Progress σ N A) : Except Stop (Rewritten N A β) × Progress σ N A :=
  let node := rebuilt entered.here.node children rs
  let touched := rs.any Rewritten.touched
  match revise plan.rootVars visitor .leave above
      (some (children.regroup (rs.map Rewritten.here))) entered p with
  | (.error stop, p) => (.error stop, p)
  | (.ok (.abort, d), p) =>
    (.error (.failed (.abortOutsideEnter (Crumb.place (Facts.crumbs d.here.location above)))), p)
  | (.ok (.quit, d), p) => (.ok (d.left entered node touched true), p)
  | (.ok (.proceed, d), p) => (.ok (d.left entered node touched false), p)

/-- Rewrites the children of a node that was entered, unless it was deleted or its children are
passed over, and leaves it if it is to be left. -/
def rewriteBelow (leaving : Leaving) (plan : Plan N A β) (visitor : SightVisitor σ N A β)
    (rewriteOne : Facts N A β → Progress σ N A → Except Stop (Rewritten N A β) × Progress σ N A)
    (above : List (Facts N A β)) (control : Control) (entered : Draft N A β)
    (p : Progress σ N A) : Except Stop (Rewritten N A β) × Progress σ N A :=
  let children :=
    if entered.here.deleted || control = .abort then .empty else plan.children entered.here.node
  let mets := children.located.map fun q => .discover q.2 (some q.1) p.accumulate
  match rewriteEach rewriteOne mets p with
  | (.error stop, p) => (.error stop, p)
  | (.ok rs, p) =>
    if !rs.any Rewritten.halted && leaving control entered.here.deleted then
      rewriteLeft plan visitor above entered children rs p
    else
      (.ok (entered.rewritten (rebuilt entered.here.node children rs) (rs.any Rewritten.touched)
        (rs.any Rewritten.halted)), p)

/-- **Rewrites** a node, down to some number of levels. -/
def rewrite (leaving : Leaving) (plan : Plan N A β) (visitor : SightVisitor σ N A β) :
    Nat → List (Facts N A β) → Facts N A β → Progress σ N A →
      Except Stop (Rewritten N A β) × Progress σ N A
  | 0, _, _, p => (.error .exhausted, p)
  | levels + 1, above, met, p =>
    match revise plan.rootVars visitor .enter above none { here := met } p with
    | (.error stop, p) => (.error stop, p)
    | (.ok (.quit, d), p) =>
      (.ok (d.rewritten (.keep d.here.node) false true), p.meet (identity met.first))
    | (.ok (control, d), p) =>
      rewriteBelow leaving plan visitor (rewrite leaving plan visitor levels (d.here :: above))
        above
        control d (p.meet (identity met.first))

/-- The rewrite of a tree. -/
def rewriteRoot (leaving : Leaving) (plan : Plan N A β) (visitor : SightVisitor σ N A β)
    (levels : Nat) (root : N) (own : σ) : Except Stop (Rewritten N A β) × Progress σ N A :=
  rewrite leaving plan visitor levels [] (.discover root none plan.initial)
    { own, accumulate := plan.initial }

end Traversal

end Arborist
