import Arborist.Query.Block
import Arborist.Query.Value

/-!
# Query documents

The tree of a query document: definitions of operations and fragments, their selections, and the
arguments and directives that go with them. Lists of nodes are blocks, so that every node has an
identity; `Element` gathers all kinds of nodes in one type, and a `Handle` is such a node with its
identity. Nodes are compared by what they say, not by the blocks in which it is stored.
-/

namespace Arborist.Query

/-- A named value that is passed to a field or a directive. -/
structure Argument where
  name : String
  value : Value
deriving BEq

/-- An annotation such as `@skip`. -/
structure Directive where
  name : String
  arguments : Block Argument
deriving BEq

/-- A field without its selections. -/
structure Field where
  alias? : Option String
  name : String
  arguments : Block Argument
  directives : Block Directive
deriving BEq

/-- The name under which a field answers. -/
def Field.answerName (f : Field) : String :=
  f.alias?.getD f.name

/-- An item of a selection set. -/
inductive Selection where
  | field (field : Field) (selections : Block Selection)
  | spread (name : String) (directives : Block Directive)
  | inline (typeCondition : Option String) (directives : Block Directive)
      (selections : Block Selection)

namespace Selection

mutual

/-- Whether two selections say the same. -/
def beq : Selection → Selection → Bool
  | .field f ⟨_, as⟩, .field g ⟨_, bs⟩ => f == g && beqList as bs
  | .spread n ds, .spread m es => n == m && ds == es
  | .inline t ds ⟨_, as⟩, .inline u es ⟨_, bs⟩ => t == u && ds == es && beqList as bs
  | _, _ => false
termination_by structural a => a

/-- Whether two lists of selections say the same. -/
def beqList : List Selection → List Selection → Bool
  | [], [] => true
  | a :: as, b :: bs => beq a b && beqList as bs
  | _, _ => false
termination_by structural as => as

end

instance : BEq Selection := ⟨beq⟩

end Selection

/-- A variable of an operation. Its default is `null` when it has none. -/
structure VariableDefinition where
  name : String
  type : TypeRef
  default : Value
  directives : Block Directive
deriving BEq

/-- The kinds of operations. -/
inductive OperationKind where
  | query
  | mutation
  | subscription
deriving DecidableEq

/-- An operation. -/
structure Operation where
  kind : OperationKind
  name : Option String
  variableDefinitions : Block VariableDefinition
  directives : Block Directive
  selections : Block Selection
deriving BEq

/-- A fragment. -/
structure Fragment where
  name : String
  typeCondition : String
  directives : Block Directive
  selections : Block Selection
deriving BEq

/-- A definition in a document. -/
inductive Definition where
  | operation (operation : Operation)
  | fragment (fragment : Fragment)
deriving BEq

/-- A document. -/
structure Document where
  definitions : Block Definition
deriving BEq

/-- A node of a query document. -/
inductive Element where
  | document (document : Document)
  | definition (definition : Definition)
  | variableDefinition (definition : VariableDefinition)
  | selection (selection : Selection)
  | directive (directive : Directive)
  | argument (argument : Argument)
deriving BEq

/-- A node of a query document with its identity. -/
abbrev Handle := Ref Element

/-! ### Kinds and labels -/

/-- The kinds of nodes. -/
inductive Kind where
  | document
  | operation
  | fragment
  | variableDefinition
  | field
  | spread
  | inline
  | directive
  | argument
deriving DecidableEq

/-- The name of a kind of nodes. -/
def Kind.display : Kind → String
  | .document => "Document"
  | .operation => "Operation Definition"
  | .fragment => "Fragment Definition"
  | .variableDefinition => "Variable Definition"
  | .field => "Field"
  | .spread => "Fragment Spread"
  | .inline => "Inline Fragment"
  | .directive => "Directive"
  | .argument => "Argument"

namespace Element

/-- The kind of a node. -/
def kind : Element → Kind
  | .document _ => .document
  | .definition (.operation _) => .operation
  | .definition (.fragment _) => .fragment
  | .variableDefinition _ => .variableDefinition
  | .selection (.field ..) => .field
  | .selection (.spread ..) => .spread
  | .selection (.inline ..) => .inline
  | .directive _ => .directive
  | .argument _ => .argument

/-- The name of a node: empty for a document and for an operation without a name, the type condition
for an inline fragment. -/
def name : Element → String
  | .document _ => ""
  | .definition (.operation o) => o.name.getD ""
  | .definition (.fragment f) => f.name
  | .variableDefinition v => v.name
  | .selection (.field f _) => f.name
  | .selection (.spread name _) => name
  | .selection (.inline typeCondition ..) => typeCondition.getD ""
  | .directive d => d.name
  | .argument a => a.name

/-- A node is labelled by its kind and its name. -/
def label (e : Element) : String :=
  e.kind.display ++ ":" ++ e.name

/-- The field, if the node is one. -/
def field? : Element → Option Field
  | .selection (.field f _) => some f
  | _ => none

/-- The name of the fragment that the node spreads, if it is a spread. -/
def spread? : Element → Option String
  | .selection (.spread name _) => some name
  | _ => none

end Element

end Arborist.Query
