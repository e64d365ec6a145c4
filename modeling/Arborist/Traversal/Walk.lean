import Arborist.Traversal.Request

/-!
# Sequential walks

A sequential walk goes **depth-first** or **breadth-first** over everything that is reachable from
its roots. It keeps a list of pending entries: contexts to visit, and contexts to leave once their
children have been dealt with. One `step` takes the first entry:

* a node that was entered before is a **back reference**, whatever context it is met in;
* any other node is entered, and if the callback says so its children become pending, followed by
  the entry that leaves the node;
* the accumulate runs through all callbacks, from each to the next.

Whether a node has been entered before is decided by the node as it was first met, while the
children are those of the node as it stands after the callback. `walk` repeats the step up to a
limit.
-/

namespace Arborist.Traversal

/-- The order of a walk. -/
inductive Mode where
  /-- A whole subtree before the next sibling. -/
  | depthFirst
  /-- All children of a node before any of its grandchildren. -/
  | breadthFirst
deriving DecidableEq

/-- A pending entry, by the place of a context in the arena. -/
inductive Entry where
  | visit (id : Nat)
  | leave (id : Nat)
deriving DecidableEq

/-- Adds the children of a node, and then its leaving, to the pending entries. -/
def Mode.schedule (mode : Mode) (parent : Nat) (children : List Nat) (pending : List Entry) :
    List Entry :=
  let added := children.map Entry.visit ++ [Entry.leave parent]
  match mode with
  | .depthFirst => added ++ pending
  | .breadthFirst => pending ++ added

/-- What a walk starts from. -/
structure Plan (N A : Type) {κ : Type} (β : κ → Type) where
  mode : Mode := .depthFirst
  /-- The children of a node. -/
  children : N → Children N
  /-- The accumulate with which the first node is reached. -/
  initial : A
  /-- Variables that every context inherits. -/
  rootVars : Vars β := .empty

/-- The state of a walk between two steps. -/
structure State (N A : Type) {κ : Type} (β : κ → Type) [Identified N] where
  ledger : Ledger N A β
  visited : List (Identity N) := []
  pending : List Entry := []
  accumulate : A

variable {σ N A κ : Type} {β : κ → Type} [Identified N] [DecidableEq κ]

/-- The visitors of sequential walks. -/
abbrev SequentialVisitor (σ N A : Type) {κ : Type} (β : κ → Type) [Identified N] :=
  Visitor σ (Cursor N A β) (Request N A β)

namespace State

/-- Ends the walk: nothing is pending any more. -/
def halt (s : State N A β) : State N A β :=
  { s with pending := [] }

/-- Prepares the context at `id` for a callback and runs the callback on it. -/
def call (s : State N A β) (rootVars : Vars β) (id : Nat) (phase : Phase)
    (callback : Callback σ (Cursor N A β) (Request N A β) Control) :
    Attempt σ (Control × State N A β) :=
  match s.ledger.arena[id]? with
  | none => pure (.proceed, s)
  | some c => fun own =>
    let start := { c with current := s.accumulate, next := none, phase := some phase }
    let spot : Spot N A β := ⟨id, start⟩
    let ledger := s.ledger.modifyAt id fun _ => start
    match callback.runOn (spot.cursor rootVars s.visited) spot.perform own ledger with
    | ((.ok control, own), ledger) =>
      (.ok (control, { s with ledger, accumulate := (spot.context ledger).handedOn }), own)
    | ((.error e, own), _) => (.error e, own)

/-- Does what a callback said that may not pass over children. -/
def obey (s : State N A β) (id : Nat) : Control → Attempt σ (State N A β)
  | .proceed => pure s
  | .quit => pure s.halt
  | .abort =>
    match s.ledger.arena[id]? with
    | none => pure s
    | some c => throw (.abortOutsideEnter (s.ledger.arena.place c))

/-- Discovers the children of the node at `id`, unless it was deleted, and makes them pending. -/
def expand (s : State N A β) (plan : Plan N A β) (id : Nat) : State N A β :=
  match s.ledger.arena[id]? with
  | none => s
  | some c =>
    let children := if c.deleted then .empty else plan.children c.node
    let ids := children.number s.ledger.arena.size
    let found := children.located.map fun (location, child) =>
      Context.discover child (some id) (some location) s.accumulate
    let arena := s.ledger.arena ++ found.toArray
    { s with
      ledger := { s.ledger with arena := arena.modify id fun c => { c with children := some ids } }
      pending := plan.mode.schedule id ids.flatten s.pending }

end State

/-- One **step**: deals with an entry that has just been taken from the pending ones. -/
def step (plan : Plan N A β) (visitor : SequentialVisitor σ N A β) (entry : Entry)
    (s : State N A β) : Attempt σ (State N A β) :=
  match entry with
  | .leave id => do
    let (control, s) ← s.call plan.rootVars id .leave visitor.leave
    s.obey id control
  | .visit id =>
    match s.ledger.arena[id]? with
    | none => pure s
    | some c =>
      if s.visited.contains (identity c.first) then do
        let (control, s) ← s.call plan.rootVars id .backRef visitor.backRef
        s.obey id control
      else do
        let (control, s) ← s.call plan.rootVars id .enter visitor.enter
        let s := { s with visited := identity c.first :: s.visited }
        match control with
        | .proceed => pure (s.expand plan id)
        | .quit => pure s.halt
        | .abort => pure s

/-- Steps until nothing is pending, at most `limit` times. -/
def steps (plan : Plan N A β) (visitor : SequentialVisitor σ N A β) :
    Nat → State N A β → Walk σ (State N A β)
  | limit, s =>
    match s.pending, limit with
    | [], _ => pure s
    | _ :: _, 0 => throw .exhausted
    | entry :: pending, limit + 1 => do
      let s ← Walk.ofAttempt (step plan visitor entry { s with pending })
      steps plan visitor limit s

/-- The state from which a walk starts: the contexts of the roots, all of them pending. -/
def start (plan : Plan N A β) (recording : Bool) (roots : List N) : State N A β :=
  { ledger :=
      { arena := (roots.map fun root => Context.discover root none none plan.initial).toArray
        edits := if recording then some [] else none }
    pending := (List.range roots.length).map Entry.visit
    accumulate := plan.initial }

/-- A **walk** over everything below the roots, and its last state. -/
def walk (plan : Plan N A β) (visitor : SequentialVisitor σ N A β) (recording : Bool)
    (limit : Nat) (roots : List N) : Walk σ (State N A β) :=
  steps plan visitor limit (start plan recording roots)

/-- The accumulate that the last callback of a walk hands on. -/
def traverse (plan : Plan N A β) (visitor : SequentialVisitor σ N A β) (limit : Nat)
    (roots : List N) : Walk σ A := do
  let s ← walk plan visitor false limit roots
  pure s.accumulate

end Arborist.Traversal
