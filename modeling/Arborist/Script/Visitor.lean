import Arborist.Script.Action
import Arborist.Transform

/-!
# Scripted visitors

The readings of the two kinds of walks, and the actions that only a sequential walk knows: those
that edit the visited node, and `attempt`, which turns a failure into a reply.
-/

namespace Arborist.Script

/-- The actions of a sequential walk. -/
inductive SequentialAction (N : Type) where
  /-- An action that every walk knows. -/
  | plain (action : Action)
  /-- Carry out an action and reply with its failure, if it fails. -/
  | attempt (action : SequentialAction N)
  /-- Go on with another node. -/
  | change (node : N)
  /-- Go on without the children of this node. -/
  | delete
  /-- Replace this node in the new tree. -/
  | replace (node : N)
  /-- Remove this node from the new tree. -/
  | remove
  /-- Put a node in front of this one in the new tree. -/
  | insertBefore (node : N)
  /-- Put a node behind this one in the new tree. -/
  | insertAfter (node : N)
  /-- Rebuild this node with other children, and replace it by the result. -/
  | rebuild (children : Children N)

variable {N A : Type} [Identified N]

/-- The reading of sequential walks. -/
def Reading.sequential (label : N → String) (texts : Texts A) (shared : Option String) :
    Reading (Cursor N A VarType.Carrier) (Request N A VarType.Carrier) Look where
  label cursor := label cursor.here.node
  phase cursor := cursor.here.phase.getD .enter
  current cursor := texts.read cursor.here.current
  next cursor := texts.read cursor.here.handedOn
  parts cursor :=
    match cursor.children? with
    | some children => children.flatten.filterMap fun c => texts.read c.handedOn
    | none => []
  vars cursor := .of cursor.here.vars.get?
  inherited cursor := .of (cursor.arena.inherited? cursor.rootVars cursor.here)
  look := .of label texts shared
  setText text := (texts.write text).map .setAccumulate
  setVar := .setVar

/-- The reading of fan-out walks. -/
def Reading.fanout (label : N → String) (texts : Texts A) (shared : Option String) :
    Reading (Fanout.Branch N A VarType.Carrier) (Fanout.Request A VarType.Carrier) FanoutLook where
  label b := label b.node
  phase b := b.phase
  current b := texts.read b.current
  next b := texts.read b.handedOn
  parts b :=
    match b.results with
    | some results => results.flatten.filterMap texts.read
    | none => []
  vars b := .of b.vars.get?
  inherited b := .of b.inherited?
  look := .of label texts shared
  setText text := (texts.write text).map .setAccumulate
  setVar := .setVar

/-- Makes a request of a sequential walk that tells it to go on. -/
def edit (q : Request N A VarType.Carrier) :
    Callback (Stage Look) (Cursor N A VarType.Carrier) (Request N A VarType.Carrier)
      (Answer Look) := do
  Callback.request q
  pure (.done, some .proceed)

/-- Carries out an action of a sequential walk. -/
def SequentialAction.perform (adapter : Adapter (Stage Look) N)
    (r : Reading (Cursor N A VarType.Carrier) (Request N A VarType.Carrier) Look) :
    SequentialAction N →
      Callback (Stage Look) (Cursor N A VarType.Carrier) (Request N A VarType.Carrier)
        (Answer Look)
  | .plain action => action.perform r
  | .attempt action => do
    match ← outcomeOf (action.perform adapter r) with
    | .ok answer => pure answer
    | .error e => pure (.refused e, none)
  | .change node => do
    Callback.request (.change node)
    pure (.done, none)
  | .delete => do
    Callback.request .delete
    pure (.done, none)
  | .replace node => edit (.replace node)
  | .remove => edit .remove
  | .insertBefore node => edit (.insertBefore node)
  | .insertAfter node => edit (.insertAfter node)
  | .rebuild children => do
    let cursor ← Callback.view
    let node ← Callback.ofAttempt (adapter.rebuild cursor.here.node children)
    edit (.replace node)

/-- A script as a visitor of sequential walks. -/
def sequentialVisitor (label : N → String) (texts : Texts A) (shared : Option String)
    (adapter : Adapter (Stage Look) N) (script : RuleSet (SequentialAction N)) :
    Traversal.SequentialVisitor (Stage Look) N A VarType.Carrier :=
  let r := Reading.sequential label texts shared
  script.visitor r (SequentialAction.perform adapter r)

/-- A script as a visitor of fan-out walks. -/
def fanoutVisitor (label : N → String) (texts : Texts A) (shared : Option String)
    (script : RuleSet Action) :
    Fanout.FanoutVisitor (Stage FanoutLook) N A VarType.Carrier :=
  let r := Reading.fanout label texts shared
  script.visitor r (Action.perform r)

end Arborist.Script
