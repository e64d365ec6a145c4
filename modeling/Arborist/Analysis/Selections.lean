import Arborist.Query.Document
import Arborist.Query.Node
import Arborist.Visitor

/-!
# Selections

What the analyses of query documents have in common: they look at **selections** only, they count
them to bound their walks, and they report fragments that are missing or that spread themselves.
-/

namespace Arborist

namespace Error

/-- A spread names a fragment that is not defined. -/
def unknownFragment (name : String) : Error :=
  query ("Fragment " ++ name ++ " does not exist")

/-- A fragment spreads itself, be it through others. -/
def fragmentCycle (name : String) : Error :=
  { query "Cannot spread fragments within themselves" with
    context := some ("in fragment " ++ name) }

end Error

namespace Query

/-- The selections of a node. -/
def Element.selections : Element → Block Selection
  | .definition (.operation o) => o.selections
  | .definition (.fragment f) => f.selections
  | .selection (.field _ selections) => selections
  | .selection (.inline _ _ selections) => selections
  | _ => .empty

/-- The selections of a node as its only children. -/
def selectionChildren (h : Handle) : Children Handle :=
  ⟨[(.selections, selectionHandles h.value.selections)]⟩

namespace Selection

mutual

/-- The number of selections in a selection, itself included. -/
def size : Selection → Nat
  | .field _ ⟨_, items⟩ => 1 + sizeList items
  | .spread .. => 1
  | .inline _ _ ⟨_, items⟩ => 1 + sizeList items
termination_by structural selection => selection

/-- The number of selections in a list of selections. -/
def sizeList : List Selection → Nat
  | [] => 0
  | selection :: rest => selection.size + sizeList rest
termination_by structural items => items

end

mutual

/-- The names of the fragments that a selection spreads, from left to right. -/
def spreads : Selection → List String
  | .field _ ⟨_, items⟩ => spreadsList items
  | .spread name _ => [name]
  | .inline _ _ ⟨_, items⟩ => spreadsList items
termination_by structural selection => selection

/-- The names of the fragments that a list of selections spreads. -/
def spreadsList : List Selection → List String
  | [] => []
  | selection :: rest => selection.spreads ++ spreadsList rest
termination_by structural items => items

end

end Selection

/-- The number of nodes of an operation, counting selections and the operation itself. -/
def Operation.size (o : Operation) : Nat :=
  1 + Selection.sizeList o.selections.items

/-- The number of nodes of a fragment, counting selections and the fragment itself. -/
def Fragment.size (f : Fragment) : Nat :=
  1 + Selection.sizeList f.selections.items

/-- The names of the fragments that a fragment spreads. -/
def Fragment.spreads (f : Fragment) : List String :=
  Selection.spreadsList f.selections.items

/-- An operation as a node. -/
def Ref.ofOperation (o : Ref Operation) : Handle :=
  o.map fun o => .definition (.operation o)

/-- A fragment as a node. -/
def Ref.ofFragment (f : Ref Fragment) : Handle :=
  f.map fun f => .definition (.fragment f)

end Query

namespace Analysis

/-- No variables are used. -/
abbrev NoVar : Empty → Type := fun _ => Unit

/-- The result of an analysis. -/
abbrev Result := Except Interrupt Nat

/-- A value that needs no walk, or an error. -/
def lift {α : Type} : Except Error α → Except Interrupt α
  | .ok a => .ok a
  | .error e => .error (.failed e)

end Analysis

end Arborist
