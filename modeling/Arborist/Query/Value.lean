import Arborist.Dict
import Arborist.Decimal.Integer

/-!
# Values and types

The **values** that can stand as arguments in a query, and the **types** of its variables. Numbers
are kept as the text they were written with.
-/

namespace Arborist.Query

/-- A value in a query. -/
inductive Value where
  | null
  | var (name : String)
  | str (text : String)
  | float (text : String)
  | int (text : String)
  | bool (value : Bool)
  | enum (name : String)
  | list (items : List Value)
  | object (fields : List (String × Value))

/-- The values of variables. -/
abbrev Variables := Dict Value

namespace Value

mutual

/-- Whether two values are equal. Numbers are compared as texts. -/
def beq : Value → Value → Bool
  | .null, .null => true
  | .var a, .var b => a == b
  | .str a, .str b => a == b
  | .float a, .float b => a == b
  | .int a, .int b => a == b
  | .bool a, .bool b => a == b
  | .enum a, .enum b => a == b
  | .list as, .list bs => beqList as bs
  | .object as, .object bs => beqFields as bs
  | _, _ => false
termination_by structural a => a

/-- Whether two lists of values are equal. -/
def beqList : List Value → List Value → Bool
  | [], [] => true
  | a :: as, b :: bs => beq a b && beqList as bs
  | _, _ => false
termination_by structural as => as

/-- Whether two lists of fields are equal. -/
def beqFields : List (String × Value) → List (String × Value) → Bool
  | [], [] => true
  | (n, a) :: as, (m, b) :: bs => n == m && beq a b && beqFields as bs
  | _, _ => false
termination_by structural as => as

end

instance : BEq Value := ⟨beq⟩

/-- Whether a value is `null`. -/
def isNull : Value → Bool
  | .null => true
  | _ => false

/-- The value itself, or the value of the variable that it names; a variable that has no value
resolves to `null`. -/
def resolve (vars : Option Variables) : Value → Value
  | .var name => (vars.bind (Dict.find? name)).getD .null
  | value => value

/-- The integer that a value stands for, with variables resolved. -/
def asInt (vars : Option Variables) (value : Value) : Option Int :=
  match value.resolve vars with
  | .int text => Decimal.int64? text
  | _ => none

end Value

/-- The type of a variable. -/
inductive TypeRef where
  | named (name : String)
  | list (inner : TypeRef)
  | nonNull (inner : TypeRef)
deriving DecidableEq

/-- The name inside all wrappers of a type. -/
def TypeRef.baseName : TypeRef → String
  | .named name => name
  | .list inner => inner.baseName
  | .nonNull inner => inner.baseName

end Arborist.Query
