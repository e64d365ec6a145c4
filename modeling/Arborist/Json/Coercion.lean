import Arborist.Error
import Arborist.Json.Basic
import Arborist.Query.Tree

/-!
# From JSON to query values

JSON values are taken **as they are** (`toValue`) or **coerced** to a type. Coercion follows the
type: where it asks for a list, anything but a list or `null` becomes a list of one; where it asks
for a value, `null` is refused. Numbers fit into the named types for numbers, truth values and
texts; all else passes as it is.
-/

namespace Arborist

namespace Error

/-- Variables have to be given as an object. -/
def nonObjectVariables : Error :=
  query "Variables expected but received non-object value"

/-- There is no value where one has to be. -/
def unexpectedNull : Error :=
  query "Received null for non-nullable type"

/-- A number is not a signed 64-bit word. -/
def floatForInt : Error :=
  query "Received Float for Int type"

end Error

namespace Json

open Query

/-- Floats in queries: never with an exponent, and whole numbers without a point. -/
def floatStyle : Decimal.Style where
  plain := none
  pointed := false
  tie := .up

/-- A number as a float. -/
def Number.toFloatText (n : Json.Number) : String :=
  n.asBinary64.print floatStyle

mutual

/-- A JSON value **as it is**. -/
def toValue : Json → Value
  | .null => .null
  | .bool b => .bool b
  | .number n =>
    match n.asInt64? with
    | some i => .int (toString i)
    | none => .float n.toFloatText
  | .string text => .str text
  | .array items => .list (toValues items)
  | .object fields => .object (toFields fields)
termination_by structural json => json

/-- JSON values as they are. -/
def toValues : List Json → List Value
  | [] => []
  | json :: rest => toValue json :: toValues rest
termination_by structural items => items

/-- The fields of a JSON object as they are. -/
def toFields : List (String × Json) → List (String × Value)
  | [] => []
  | (name, json) :: rest => (name, toValue json) :: toFields rest
termination_by structural fields => fields

end

/-- Coerces a JSON value to a named type. -/
def coerceNamed (name : String) (json : Json) : Except Error Value :=
  match json with
  | .null => .ok .null
  | .bool b => .ok (.bool b)
  | .number n =>
    if name = "Boolean" then .ok (.bool (n.asUInt64?.getD 0 ≠ 0))
    else if name = "Int" then
      match n.asInt64? with
      | some i => .ok (.int (toString i))
      | none => .error .floatForInt
    else if name = "Float" then .ok (.float n.toFloatText)
    else if name = "ID" ∨ name = "String" then .ok (.str n.print)
    else .ok (toValue json)
  | json => .ok (toValue json)

/-- **Coerces** a JSON value to a type. -/
def coerce : TypeRef → Json → Except Error Value
  | .named name, json => coerceNamed name json
  | .nonNull inner, json =>
    match json with
    | .null => .error .unexpectedNull
    | json => coerce inner json
  | .list inner, json =>
    match json with
    | .null => .ok .null
    | .array items => do pure (.list (← items.mapM (coerce inner)))
    | json => do pure (.list [← coerce inner json])

/-- The variables of a JSON object, as they are. No variables may be given as `null`. -/
def toVariables : Json → Except Error Variables
  | .object fields => .ok (Dict.ofList (toFields fields))
  | .null => .ok []
  | _ => .error .nonObjectVariables

/-- The value of a variable that was not given: its default, in a list if the type asks for one. -/
def defaultFor (v : VariableDefinition) : Value :=
  match v.type, v.default with
  | .list _, .null => .null
  | .list _, .list items => .list items
  | .list _, value => .list [value]
  | _, value => value

/-- The value of one variable, coerced to its type. -/
def variableFrom (fields : Dict Json) (v : VariableDefinition) : Except Error Value :=
  match Dict.find? v.name fields with
  | some json => coerce v.type json
  | none => .ok (defaultFor v)

/-- The variables of an operation, each coerced to its type. -/
def coerceVariables (definitions : List VariableDefinition) (json : Json) :
    Except Error Variables :=
  match definitions, json with
  | [], _ => .ok []
  | definitions, .object fields =>
    definitions.foldlM (fun vars v => do
      let value ← variableFrom fields v
      pure (vars.insert v.name value)) []
  | _, _ => .error .nonObjectVariables

end Json

end Arborist
