import Arborist.Script.Look

/-!
# Scripts

A **script** is a visitor given as data: a list of rules, each with a phase, a pattern for the label
of the visited node, and actions. All rules that match when a callback starts are run in order.
Every callback leaves one **event**, with the replies of the actions that were completed.

The actions that every walk knows are interpreted through a `Reading`, which says how they read and
write the context of the walk at hand.
-/

namespace Arborist.Script

/-! ### Rules -/

/-- A pattern for labels. -/
inductive Pattern where
  | exactly (label : String)
  | startsWith (start : String)

/-- A pattern that ends with a star stands for all labels that start with the rest. -/
def Pattern.ofString (s : String) : Pattern :=
  match s.toList.reverse with
  | '*' :: rest => .startsWith (String.ofList rest.reverse)
  | _ => .exactly s

/-- Whether a label fits a pattern. -/
def Pattern.fits : Pattern → String → Bool
  | .exactly s, label => label == s
  | .startsWith s, label => s.toList.isPrefixOf label.toList

/-- Actions to run in a phase on nodes whose label fits. -/
structure Rule (α : Type) where
  phase : Phase
  pattern : Pattern
  actions : List α

/-- A **script**: rules, and whether every event reports all that can be seen. -/
structure RuleSet (α : Type) where
  rules : List (Rule α) := []
  full : Bool := false

/-- The actions of all rules that match, in order. -/
def RuleSet.actionsFor {α : Type} (script : RuleSet α) (phase : Phase) (label : String) : List α :=
  (script.rules.filter fun rule => rule.phase == phase && rule.pattern.fits label).flatMap
    Rule.actions

/-! ### Events -/

/-- What a completed action replies. -/
inductive Reply (L : Type) where
  | done
  | vars (readout : Readout)
  | look (look : L)
  | refused (e : Error)

/-- The trace of one callback. -/
structure Event (L : Type) where
  phase : Phase
  node : String
  look : Option L := none
  did : List (Reply L) := []

/-- The state of a scripted visitor: a supply of identities and the events so far. -/
structure Stage (L : Type) where
  next : Nat := 0
  events : Array (Event L) := #[]

instance {L : Type} : Supply (Stage L) where
  fresh s := (s.next, { s with next := s.next + 1 })

/-! ### Actions -/

/-- The actions that every walk knows. -/
inductive Action where
  /-- Hand on this text. -/
  | setText (text : String)
  /-- Hand on the text that would be handed on, followed by this one. -/
  | append (text : String)
  /-- Hand on the text that came in, followed by this one. -/
  | appendCurrent (text : String)
  /-- Hand on the text that would be handed on, followed by the label. -/
  | appendLabel
  /-- Hand on the label, with the texts of the children in brackets if there are any. -/
  | fold
  /-- Store a variable. -/
  | setVar (type : VarType) (value : type.Carrier)
  /-- Report the variables of this node. -/
  | get
  /-- Report the variables that this node inherits. -/
  | inherit
  /-- Report all that can be seen. -/
  | look
  /-- Set what the callback tells the walk. -/
  | tell (control : Control)
  /-- Fail. -/
  | fail (e : Error)

/-- How actions read and write the contexts of a kind of walk. -/
structure Reading (V Q L : Type) where
  label : V → String
  phase : V → Phase
  current : V → Option String
  next : V → Option String
  /-- The texts that the children hand on, while a node is left. -/
  parts : V → List String
  vars : V → Readout
  inherited : V → Readout
  look : V → L
  setText : String → Option Q
  setVar : (k : VarType) → k.Carrier → Q

variable {σ V Q L α : Type}

/-- What an action replies, and what it tells the walk. -/
abbrev Answer (L : Type) := Reply L × Option Control

/-- Hands on a text, where accumulates are texts. -/
def Reading.write (r : Reading V Q L) (text : Option String) : Callback σ V Q (Answer L) :=
  match text.bind r.setText with
  | some q => do
    Callback.request q
    pure (.done, none)
  | none => pure (.done, none)

/-- The label, with the parts in brackets if there are any. -/
def foldText (label : String) : List String → String
  | [] => label
  | parts => label ++ "(" ++ ",".intercalate parts ++ ")"

/-- Carries out an action. -/
def Action.perform (r : Reading V Q L) (action : Action) : Callback σ V Q (Answer L) := do
  let v ← Callback.view
  match action with
  | .setText text => r.write (some text)
  | .append text => r.write ((r.next v).map (· ++ text))
  | .appendCurrent text => r.write ((r.current v).map (· ++ text))
  | .appendLabel => r.write ((r.next v).map (· ++ r.label v))
  | .fold => r.write (some (foldText (r.label v) (r.parts v)))
  | .setVar type value =>
    Callback.request (r.setVar type value)
    pure (.done, none)
  | .get => pure (.vars (r.vars v), none)
  | .inherit => pure (.vars (r.inherited v), none)
  | .look => pure (.look (r.look v), none)
  | .tell control => pure (.done, some control)
  | .fail e => throw e

/-! ### Callbacks -/

/-- The outcome of a callback, failures included. -/
def outcomeOf (c : Callback σ V Q α) : Callback σ V Q (Except Error α) :=
  tryCatch (Except.ok <$> c) fun e => pure (.error e)

/-- Adds an event to the trace. -/
def record (event : Event L) : Callback (Stage L) V Q Unit :=
  modify fun s => { s with events := s.events.push event }

/-- Runs actions one after the other and leaves the event; the first failure ends the callback. -/
def runActions (perform : α → Callback (Stage L) V Q (Answer L)) (event : Event L) :
    List α → Control → Callback (Stage L) V Q Control
  | [], control => do
    record event
    pure control
  | action :: rest, control => do
    match ← outcomeOf (perform action) with
    | .ok (reply, told) =>
      runActions perform { event with did := event.did ++ [reply] } rest (told.getD control)
    | .error e =>
      record event
      throw e

/-- The callback of a script. -/
def RuleSet.callback (script : RuleSet α) (r : Reading V Q L)
    (perform : α → Callback (Stage L) V Q (Answer L)) : Callback (Stage L) V Q Control := do
  let v ← Callback.view
  let event : Event L :=
    { phase := r.phase v
      node := r.label v
      look := if script.full then some (r.look v) else none }
  runActions perform event (script.actionsFor (r.phase v) (r.label v)) .proceed

/-- A script as a visitor: one callback serves all phases. -/
def RuleSet.visitor (script : RuleSet α) (r : Reading V Q L)
    (perform : α → Callback (Stage L) V Q (Answer L)) : Visitor (Stage L) V Q where
  enter := script.callback r perform
  leave := script.callback r perform
  backRef := script.callback r perform

end Arborist.Script
