import Arborist.Analysis.Calculator
import Arborist.Analysis.FragmentOrder
import Arborist.Fanout

/-!
# Complexity of an operation

The **complexity** of an operation is the sum of the scores of its fields, as a calculator gives
them. Fragments are scored first, each after those that it spreads, and a spread counts as much as
its fragment. Scores go up through a fan-out walk: each node gets the scores of its selections back.
-/

namespace Arborist

namespace Error

/-- The complexity of an operation is larger than allowed. -/
def complexityExceeded (complexity max : Nat) : Error :=
  query ("Maximum query complexity exceeded: " ++ toString complexity ++ " > " ++ toString max)

end Error

namespace Analysis.Complexity

open Query

/-- The branches of the walk. -/
abbrev ScoreBranch := Fanout.Branch Handle Nat NoVar

/-- The callbacks of the walk. -/
abbrev ScoreCallback := Callback Unit ScoreBranch (Fanout.Request Nat NoVar)

/-- A spread has the score of its fragment. -/
def enter (scores : Dict Nat) : ScoreCallback Control := do
  let b ← Callback.view
  match b.node.value.spread? with
  | some name =>
    match scores.find? name with
    | some score =>
      Callback.request (.setAccumulate score)
      pure .proceed
    | none => throw (.unknownFragment name)
  | none => pure .proceed

/-- The sum of the scores of the selections. -/
def inner (b : ScoreBranch) : Nat :=
  match b.results with
  | some results => sumScores results.flatten
  | none => 0

/-- A field is scored by the calculator, and any other node but a spread by the sum. -/
def leave (calculator : Calculator) (vars : Option Variables) : ScoreCallback Control := do
  let b ← Callback.view
  match b.node.value with
  | .selection (.spread ..) => pure .proceed
  | .selection (.field field selections) =>
    Callback.request (.setAccumulate (calculator { field, selections, inner := inner b, vars }))
    pure .proceed
  | _ =>
    Callback.request (.setAccumulate (inner b))
    pure .proceed

/-- The visitor that computes scores. -/
def visitor (calculator : Calculator) (vars : Option Variables) (scores : Dict Nat) :
    Fanout.FanoutVisitor Unit Handle Nat NoVar where
  enter := enter scores
  leave := leave calculator vars

/-- The score of everything below a node, given a bound for its depth. -/
def score (calculator : Calculator) (vars : Option Variables) (scores : Dict Nat)
    (limit : Nat) (root : Handle) : Result :=
  let plan : Fanout.Plan Handle Nat NoVar := { children := selectionChildren, initial := 0 }
  match ((Fanout.traverse plan (visitor calculator vars scores) limit [root]).runWith ()).1 with
  | .ok results => .ok (results.headD 0)
  | .error e => .error e

/-- The scores of fragments that come after all that they spread. -/
def scoreFragments (calculator : Calculator) (vars : Option Variables)
    (fragments : List (Ref Fragment)) : Except Interrupt (Dict Nat) :=
  fragments.foldlM (fun scores f => do
    let s ← score calculator vars scores (f.value.size + 1) f.ofFragment
    pure (scores.insert f.value.name s)) []

/-- The **complexity** of an operation, with the fragments of the document. -/
def ofOperation (calculator : Calculator) (vars : Option Variables) (document : Document)
    (operation : Ref Operation) : Result := do
  let fragments ← inOrder document.fragments
  let scores ← scoreFragments calculator vars fragments
  score calculator vars scores (operation.value.size + 1) operation.ofOperation

/-- The complexity of the operation of the given name, or of the only one. -/
def calculate (calculator : Calculator) (vars : Option Variables) (document : Document)
    (name : Option String) : Result := do
  let operation ← lift (document.operation name)
  ofOperation calculator vars document operation

/-- The complexity of an operation, unless it is larger than `max`. -/
def ensureMax (calculator : Calculator) (vars : Option Variables) (document : Document)
    (name : Option String) (max : Nat) : Result := do
  let complexity ← calculate calculator vars document name
  if complexity > max then throw (.failed (.complexityExceeded complexity max))
  else pure complexity

end Analysis.Complexity

end Arborist
