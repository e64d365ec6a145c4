import Arborist.Decimal.Shortest
import Arborist.Dict

/-!
# JSON values

A JSON **number** is an integer of machine size or a finite binary64 number. Objects are
dictionaries: their keys are distinct and in ascending order.
-/

namespace Arborist

/-- A JSON number. -/
inductive Json.Number where
  | int (value : Int)
  | float (value : Decimal.Binary64)
deriving DecidableEq

/-- A JSON value. -/
inductive Json where
  | null
  | bool (value : Bool)
  | number (value : Json.Number)
  | string (text : String)
  | array (items : List Json)
  | object (fields : List (String × Json))

namespace Json.Number

/-- The number that a written integer stands for: a word of 64 bits, signed or unsigned, or else the
nearest binary64 number. -/
def ofInt (i : Int) : Json.Number :=
  if Decimal.fitsInt64 i || Decimal.fitsUInt64 i then .int i else .float (.ofInt i)

/-- The number as a signed 64-bit word. -/
def asInt64? : Json.Number → Option Int
  | .int i => if Decimal.fitsInt64 i then some i else none
  | .float _ => none

/-- The number as an unsigned 64-bit word. -/
def asUInt64? : Json.Number → Option Int
  | .int i => if Decimal.fitsUInt64 i then some i else none
  | .float _ => none

/-- The number as the nearest binary64 number. -/
def asBinary64 : Json.Number → Decimal.Binary64
  | .int i => .ofInt i
  | .float x => x

/-- Numbers in JSON text: from 1e-5 up to 1e15 without an exponent, and always told apart from
integers by a point or an exponent. -/
def style : Decimal.Style where
  plain := some (-5, 15)
  pointed := true
  tie := .toEven

/-- A number in JSON text. -/
def print : Json.Number → String
  | .int i => toString i
  | .float x => x.print style

end Json.Number

end Arborist
