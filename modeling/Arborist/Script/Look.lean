import Arborist.Fanout
import Arborist.Traversal.Request

/-!
# What a script can see

A scripted visitor reports what it sees as plain data: labels in place of nodes, and three
variables, one for each type of value. There is one kind of report for sequential walks and one for
fan-out walks, because their contexts show different things.
-/

namespace Arborist.Script

/-- The types of variables that scripts use. -/
inductive VarType where
  | int
  | text
  | flag
deriving DecidableEq

/-- The values of a type of variables. -/
abbrev VarType.Carrier : VarType → Type
  | .int => Int
  | .text => String
  | .flag => Bool

/-- The variables of scripted walks. -/
abbrev ScriptVars := Vars VarType.Carrier

/-- The values of all three variables, as far as they are set. -/
structure Readout where
  int : Option Int
  text : Option String
  flag : Option Bool

/-- Reads all three variables. -/
def Readout.of (get : (k : VarType) → Option k.Carrier) : Readout :=
  { int := get .int, text := get .text, flag := get .flag }

/-- Nothing is set. -/
def Readout.none : Readout :=
  .of fun _ => Option.none

/-- How accumulates are read and written as text. Where they carry nothing there is nothing to read
and nothing to write. -/
structure Texts (A : Type) where
  read : A → Option String
  write : String → Option A

/-- Accumulates that are texts. -/
def Texts.plain : Texts String where
  read := some
  write := some

/-- Accumulates that carry nothing. -/
def Texts.mute : Texts Unit where
  read _ := none
  write _ := none

/-- A crumb is written as the label of its node, an at sign, and the location. -/
def crumbText {N : Type} (label : N → String) (crumb : Crumb N) : String :=
  label crumb.node ++ "@" ++ crumb.location.display

/-! ### Sequential walks -/

/-- A report on another context of the walk, or on the **root context** above the roots, which holds
the root variables and no node. -/
structure Sighting where
  isRoot : Bool
  node : Option String := none
  first : Option String := none
  changed : Bool := false
  deleted : Bool := false
  parentIsRoot : Option Bool := none
  location : Option Location := none
  crumbs : List String := []
  vars : Readout
  inherited : Readout := .none
  current : Option String := none
  next : Option String := none
  phase : Option Phase := none

/-- A report on the context that is being visited. -/
structure Look where
  phase : Phase
  node : String
  first : String
  changed : Bool
  deleted : Bool
  location : Option Location
  parent : Option String
  parents : List String
  crumbs : List String
  parentContext : Sighting
  vars : Readout
  inherited : Readout
  current : Option String
  next : Option String
  shared : Option String
  visited : Bool
  visitedCount : Nat
  children : Option (Children Sighting)

variable {N A : Type} [Identified N]

/-- Reports on another context. -/
def Sighting.of (label : N → String) (texts : Texts A) (cursor : Cursor N A VarType.Carrier)
    (c : Context N A VarType.Carrier) : Sighting :=
  { isRoot := false
    node := some (label c.node)
    first := some (label c.first)
    changed := c.changed
    deleted := c.deleted
    parentIsRoot := some c.parent.isNone
    location := c.location
    crumbs := (cursor.arena.crumbs c).map (crumbText label)
    vars := .of c.vars.get?
    inherited := .of (cursor.arena.inherited? cursor.rootVars c)
    current := texts.read c.current
    next := texts.read c.handedOn
    phase := c.phase }

/-- Reports on the root context. -/
def Sighting.root (cursor : Cursor N A VarType.Carrier) : Sighting :=
  { isRoot := true, vars := .of cursor.rootVars.get? }

/-- Reports on the context that is being visited. -/
def Look.of (label : N → String) (texts : Texts A) (shared : Option String)
    (cursor : Cursor N A VarType.Carrier) : Look :=
  let here := cursor.here
  { phase := here.phase.getD .enter
    node := label here.node
    first := label here.first
    changed := here.changed
    deleted := here.deleted
    location := here.location
    parent := cursor.parent?.map fun c => label c.node
    parents := cursor.parents.map label
    crumbs := cursor.crumbs.map (crumbText label)
    parentContext :=
      match cursor.parent? with
      | some c => .of label texts cursor c
      | none => .root cursor
    vars := .of here.vars.get?
    inherited := .of (cursor.arena.inherited? cursor.rootVars here)
    current := texts.read here.current
    next := texts.read here.handedOn
    shared
    visited := cursor.isVisited
    visitedCount := cursor.visited.length
    children := cursor.children?.map fun cs => cs.map (.of label texts cursor) }

/-! ### Fan-out walks -/

/-- A report on a node of a fan-out walk. -/
structure FanoutLook where
  phase : Phase
  node : String
  location : Option Location
  parent : Option String
  parentLocation : Option Location
  parentVars : Readout
  parents : List String
  crumbs : List String
  vars : Readout
  inherited : Readout
  current : Option String
  next : Option String
  shared : Option String
  visited : Bool
  visitedCount : Nat
  children : Option (Children (Option String))

/-- Reports on a node of a fan-out walk. -/
def FanoutLook.of (label : N → String) (texts : Texts A) (shared : Option String)
    (b : Fanout.Branch N A VarType.Carrier) : FanoutLook :=
  let above := b.frames.head?
  { phase := b.phase
    node := label b.node
    location := b.location
    parent := above.map fun frame => label frame.node
    parentLocation := above.bind Fanout.Frame.location
    parentVars := .of fun k => above.bind fun frame => frame.vars.get? k
    parents := b.frames.map fun frame => label frame.node
    crumbs := b.crumbs.map (crumbText label)
    vars := .of b.vars.get?
    inherited := .of b.inherited?
    current := texts.read b.current
    next := texts.read b.handedOn
    shared
    visited := b.isVisited
    visitedCount := b.visited.length
    children := b.results.map fun rs => rs.map texts.read }

end Arborist.Script
