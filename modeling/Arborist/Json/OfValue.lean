import Arborist.Json.Basic
import Arborist.Query.Document

/-!
# From query values to JSON

A value becomes the JSON value that it stands for. Variables are replaced by their values, which
have no variables of their own to look up; a variable without a value becomes `null`. A number whose
text can't be read stays a string.
-/

namespace Arborist.Json

open Query

/-- The JSON value of an integer's text. -/
def ofIntText (text : String) : Json :=
  match Decimal.int64? text with
  | some i => .number (.int i)
  | none => .string text

/-- The JSON value of a float's text. -/
def ofFloatText (text : String) : Json :=
  match Decimal.numeral? text with
  | some (.finite x) => .number (.float x)
  | some .nonFinite => .null
  | none => .string text

mutual

/-- The JSON value of a value, given what its variables stand for. -/
def ofValueWith (lookup : String → Json) : Value → Json
  | .null => .null
  | .var name => lookup name
  | .str text => .string text
  | .float text => ofFloatText text
  | .int text => ofIntText text
  | .bool b => .bool b
  | .enum name => .string name
  | .list items => .array (ofValuesWith lookup items)
  | .object fields => .object (Dict.ofList (ofFieldsWith lookup fields))
termination_by structural value => value

/-- The JSON values of a list of values. -/
def ofValuesWith (lookup : String → Json) : List Value → List Json
  | [] => []
  | value :: rest => ofValueWith lookup value :: ofValuesWith lookup rest
termination_by structural items => items

/-- The JSON values of the fields of an object. -/
def ofFieldsWith (lookup : String → Json) : List (String × Value) → List (String × Json)
  | [] => []
  | (name, value) :: rest => (name, ofValueWith lookup value) :: ofFieldsWith lookup rest
termination_by structural fields => fields

end

/-- The JSON value of a value in which all variables are `null`. -/
def ofClosedValue (value : Value) : Json :=
  ofValueWith (fun _ => .null) value

/-- The **JSON value** of a value. -/
def ofValue (vars : Option Variables) (value : Value) : Json :=
  ofValueWith (fun name =>
    match vars.bind (Dict.find? name) with
    | some v => ofClosedValue v
    | none => .null) value

/-- The object of some arguments. -/
def ofArguments (vars : Option Variables) (arguments : Block Argument) : Json :=
  .object (Dict.ofList (arguments.items.map fun a => (a.name, ofValue vars a.value)))

/-- The object of some variables. -/
def ofVariables (vars : Variables) : Json :=
  .object (Dict.ofList (vars.map fun (name, value) => (name, ofClosedValue value)))

end Arborist.Json
