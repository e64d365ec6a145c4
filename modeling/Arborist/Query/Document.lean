import Arborist.Error
import Arborist.Query.Tree

/-!
# Definitions of a document

Looking up the operations and the fragments of a document. An operation is chosen by its name, or
without a name if it is the only one. Of several fragments with one name the last counts.
-/

namespace Arborist

namespace Error

/-- No operation has this name. -/
def unknownOperation (name : String) : Error :=
  query ("Operation with name " ++ name ++ " does not exist")

/-- There is no operation to choose. -/
def noOperation : Error :=
  query "Document does not contain any operations"

/-- An operation can't be chosen without a name. -/
def ambiguousOperation : Error :=
  query "Document contains more than one operation, missing operation name"

end Error

namespace Query

/-- The operation of a definition. -/
def Definition.operation? : Definition → Option Operation
  | .operation o => some o
  | .fragment _ => none

/-- The fragment of a definition. -/
def Definition.fragment? : Definition → Option Fragment
  | .operation _ => none
  | .fragment f => some f

/-- Looks at a node in a way that may not apply. -/
def Ref.filterMap {α γ : Type} (f : α → Option γ) (r : Ref α) : Option (Ref γ) :=
  (f r.value).map fun value => ⟨r.id, value⟩

namespace Document

/-- Whether a document has no definitions. -/
def isEmpty (d : Document) : Bool :=
  d.definitions.items.isEmpty

/-- The operations in order. -/
def operations (d : Document) : List (Ref Operation) :=
  d.definitions.refs.filterMap (Ref.filterMap Definition.operation?)

/-- The fragments by name. -/
def fragments (d : Document) : Dict (Ref Fragment) :=
  .ofList ((d.definitions.refs.filterMap (Ref.filterMap Definition.fragment?)).map fun r =>
    (r.value.name, r))

/-- The operation of the given name, or the only operation if none is given. -/
def operation (d : Document) (name : Option String) : Except Error (Ref Operation) :=
  match name with
  | some name =>
    match d.operations.find? (·.value.name = some name) with
    | some o => .ok o
    | none => .error (.unknownOperation name)
  | none =>
    match d.operations with
    | [o] => .ok o
    | [] => .error .noOperation
    | _ => .error .ambiguousOperation

end Document

/-- The value of the first argument of a name. -/
def argument? (b : Block Argument) (name : String) : Option Value :=
  (b.items.find? (·.name = name)).map Argument.value

end Query

end Arborist
