import Arborist.Analysis.Selections
import Arborist.Traversal.Walk

/-!
# Depth of an operation

The **depth** of an operation is the largest number of fields that are nested inside one another.
Spreads and inline fragments don't count themselves, but the fields in them do, as if they stood in
place of the spread.

The depth is computed on a sequential walk that follows spreads into the fragments. Every node
stores its depth as a variable when it is left. A fragment that is reached again has either been
left, and its depth is known, or it is still open and spreads itself.
-/

namespace Arborist

namespace Error

/-- The depth of an operation is larger than allowed. -/
def depthExceeded (depth max : Nat) : Error :=
  query ("Maximum query depth exceeded: " ++ toString depth ++ " > " ++ toString max)

end Error

namespace Analysis.Depth

open Query

/-- One variable: the depth of a node. -/
abbrev DepthVar : Unit → Type := fun _ => Nat

/-- The cursors of the walk. -/
abbrev DepthCursor := Cursor Handle Nat DepthVar

/-- The callbacks of the walk, whose state holds the depths of the fragments that have been left. -/
abbrev DepthCallback :=
  Callback (Dict Nat) DepthCursor (Request Handle Nat DepthVar)

/-- The children of a node: the fragment for a spread, the selections for any other node. -/
def children (fragments : Dict (Ref Fragment)) (h : Handle) : Children Handle :=
  match h.value.spread? with
  | some name =>
    match fragments.find? name with
    | some f => ⟨[(.fragment, [f.ofFragment])]⟩
    | none => .empty
  | none => selectionChildren h

/-- A spread has to name a fragment that is defined. -/
def enter (fragments : Dict (Ref Fragment)) : DepthCallback Control := do
  let cursor ← Callback.view
  match cursor.here.node.value.spread? with
  | some name =>
    match fragments.find? name with
    | some _ => pure .proceed
    | none => throw (.unknownFragment name)
  | none => pure .proceed

/-- The largest depth among the children that have one. -/
def nested (cursor : DepthCursor) : Nat :=
  match cursor.children? with
  | some children => (children.flatten.filterMap fun c => c.vars.get? ()).foldl max 0
  | none => 0

/-- Stores the depth of a node, and remembers that of a fragment. The root hands its depth on. -/
def leave : DepthCallback Control := do
  let cursor ← Callback.view
  let inner := nested cursor
  let depth ← match cursor.here.node.value with
    | .selection (.field ..) => pure (inner + 1)
    | .definition (.fragment f) => do
      modify (Dict.insert f.name inner)
      pure inner
    | _ => pure inner
  Callback.request (.setVar () depth)
  if cursor.here.link.isNone then
    Callback.request (.setAccumulate depth)
  pure .proceed

/-- A fragment that is reached again has its known depth, or spreads itself. -/
def backRef : DepthCallback Control := do
  let cursor ← Callback.view
  match cursor.here.node.value with
  | .definition (.fragment f) =>
    match Dict.find? f.name (← get) with
    | some depth =>
      Callback.request (.setVar () depth)
      pure .proceed
    | none => throw (.fragmentCycle f.name)
  | _ => pure .proceed

/-- The visitor that computes depths. -/
def visitor (fragments : Dict (Ref Fragment)) :
    Traversal.SequentialVisitor (Dict Nat) Handle Nat DepthVar where
  enter := enter fragments
  leave := leave
  backRef := backRef

/-- A bound for the length of the walk: every node of the operation and of the fragments is entered
at most once, and pends for itself, for its leaving and, if it is a spread, for its fragment. -/
def limit (fragments : Dict (Ref Fragment)) (operation : Operation) : Nat :=
  3 * fragments.foldl (fun n (_, f) => n + f.value.size) operation.size + 1

/-- The **depth** of an operation, with spreads followed into the document. -/
def ofOperation (document : Document) (operation : Ref Operation) : Result :=
  let fragments := document.fragments
  let plan : Traversal.Plan Handle Nat DepthVar :=
    { children := children fragments, initial := 0 }
  ((Traversal.traverse plan (visitor fragments) (limit fragments operation.value)
    [operation.ofOperation]).runWith []).1

/-- The depth of the operation of the given name, or of the only one. -/
def calculate (document : Document) (name : Option String) : Result := do
  let operation ← lift (document.operation name)
  ofOperation document operation

/-- The depth of an operation, unless it is larger than `max`. -/
def ensureMax (document : Document) (name : Option String) (max : Nat) : Result := do
  let depth ← calculate document name
  if depth > max then throw (.failed (.depthExceeded depth max)) else pure depth

end Analysis.Depth

end Arborist
