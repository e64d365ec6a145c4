/-!
# Roles and locations

The children of a node are grouped under **roles**, and a child's **location** in its parent is
the role it is grouped under together with its index in that group.
-/

namespace Arborist

/-- The label of a group of children. A group may go without a name, and an unnamed group differs
from one whose name is empty. -/
inductive Role where
  | unnamed
  | named (name : String)
deriving DecidableEq

/-- A role is written as its name, and the unnamed role as nothing. -/
def Role.display : Role → String
  | .unnamed => ""
  | .named name => name

instance : ToString Role := ⟨Role.display⟩

/-- A **location**: a child's position in its parent. -/
structure Location where
  role : Role
  index : Nat
deriving DecidableEq

/-- A location is written as its role followed by the index in square brackets. -/
def Location.display (l : Location) : String :=
  l.role.display ++ "[" ++ toString l.index ++ "]"

instance : ToString Location := ⟨Location.display⟩

/-- Where a node stands, read from the root downwards: `at root` for the empty path. -/
def Location.place (downwards : List Location) : String :=
  match downwards with
  | [] => "at root"
  | path => "at " ++ ".".intercalate (path.map Location.display)

end Arborist
