import Arborist.Query.Tree

/-!
# Printing query documents

Documents are printed on a single line, with one blank between the parts of a selection set. String
literals are printed between quotes: a few characters have a short escape, other control characters
and everything beyond the first plane are written with their number in hexadecimal, and the rest
stands for itself.
-/

namespace Arborist.Query

/-! ### String literals -/

/-- The number of a character in hexadecimal, with at least four digits. -/
def hexDigits (n : Nat) : List Char :=
  let digits := Nat.toDigits 16 n
  List.replicate (4 - digits.length) '0' ++ digits

/-- A character as it is written in a string literal. -/
def escapeChar (c : Char) : List Char :=
  if c = '\r' then ['\\', 'r']
  else if c = '\n' then ['\\', 'n']
  else if c = '\t' then ['\\', 't']
  else if c = '"' then ['\\', '"']
  else if c = '\\' then ['\\', '\\']
  else if 0x20 ≤ c.toNat ∧ c.toNat ≤ 0xFFFF then [c]
  else '\\' :: 'u' :: hexDigits c.toNat

/-- The characters of a string literal, quotes included. -/
def quoteChars (cs : List Char) : List Char :=
  '"' :: cs.flatMap escapeChar ++ ['"']

/-- A text as a **string literal**. -/
def quote (text : String) : String :=
  String.ofList (quoteChars text.toList)

/-! ### Values and types -/

/-- Texts between brackets with a separator; nothing if there are none. -/
def enclosed (opening separator closing : String) : List String → String
  | [] => ""
  | parts => opening ++ separator.intercalate parts ++ closing

namespace Value

mutual

/-- A value in source form. -/
def print : Value → String
  | .null => "null"
  | .var name => "$" ++ name
  | .str text => quote text
  | .float text => text
  | .int text => text
  | .bool true => "true"
  | .bool false => "false"
  | .enum name => name
  | .list items => "[" ++ ", ".intercalate (printList items) ++ "]"
  | .object fields => "\x7b" ++ ", ".intercalate (printFields fields) ++ "\x7d"
termination_by structural value => value

/-- Values in source form. -/
def printList : List Value → List String
  | [] => []
  | value :: rest => value.print :: printList rest
termination_by structural items => items

/-- Fields of an object in source form. -/
def printFields : List (String × Value) → List String
  | [] => []
  | (name, value) :: rest => (name ++ ": " ++ value.print) :: printFields rest
termination_by structural fields => fields

end

end Value

/-- A type in source form. -/
def TypeRef.print : TypeRef → String
  | .named name => name
  | .list inner => "[" ++ inner.print ++ "]"
  | .nonNull inner => inner.print ++ "!"

/-! ### Nodes -/

/-- An argument in source form. -/
def Argument.print (a : Argument) : String :=
  a.name ++ ": " ++ a.value.print

/-- Arguments in parentheses. -/
def printArguments (b : Block Argument) : String :=
  enclosed "(" ", " ")" (b.items.map Argument.print)

/-- A directive in source form. -/
def Directive.print (d : Directive) : String :=
  "@" ++ d.name ++ printArguments d.arguments

/-- Directives, each with a blank in front. -/
def printDirectives (b : Block Directive) : String :=
  String.join (b.items.map fun d => " " ++ d.print)

/-- A field up to its selections. -/
def Field.print (f : Field) : String :=
  (match f.alias? with
    | some name => name ++ ": " ++ f.name
    | none => f.name) ++ printArguments f.arguments ++ printDirectives f.directives

/-- A selection set of printed selections. -/
def enclosedSelections : List String → String :=
  enclosed "\x7b " " " " \x7d"

namespace Selection

mutual

/-- A selection in source form. -/
def print : Selection → String
  | .field f ⟨_, items⟩ =>
    match items with
    | [] => f.print
    | first :: rest => f.print ++ " " ++ enclosedSelections (first.print :: printList rest)
  | .spread name directives => "..." ++ name ++ printDirectives directives
  | .inline typeCondition directives ⟨_, items⟩ =>
    "..." ++ (match typeCondition with
      | some name => " on " ++ name
      | none => "") ++ printDirectives directives ++ " " ++ enclosedSelections (printList items)
termination_by structural selection => selection

/-- Selections in source form. -/
def printList : List Selection → List String
  | [] => []
  | selection :: rest => selection.print :: printList rest
termination_by structural items => items

end

end Selection

/-- A selection set in source form; nothing if it is empty. -/
def printSelections (b : Block Selection) : String :=
  enclosedSelections (Selection.printList b.items)

/-- A variable definition in source form. A default of `null` is left out. -/
def VariableDefinition.print (v : VariableDefinition) : String :=
  "$" ++ v.name ++ ": " ++ v.type.print
    ++ (if v.default.isNull then "" else " = " ++ v.default.print)
    ++ printDirectives v.directives

/-- Variable definitions in parentheses. -/
def printVariables (b : Block VariableDefinition) : String :=
  enclosed "(" ", " ")" (b.items.map VariableDefinition.print)

/-- The keyword of a kind of operations. -/
def OperationKind.print : OperationKind → String
  | .query => "query"
  | .mutation => "mutation"
  | .subscription => "subscription"

/-- An operation in source form. A query without a name, variables and directives is printed as its
selection set alone. -/
def Operation.print (o : Operation) : String :=
  if o.kind = .query ∧ o.name.isNone ∧ o.variableDefinitions.items.isEmpty ∧
      o.directives.items.isEmpty then
    printSelections o.selections
  else
    o.kind.print
      ++ (match o.name with
        | some name => " " ++ name
        | none => if o.variableDefinitions.items.isEmpty then "" else " ")
      ++ printVariables o.variableDefinitions ++ printDirectives o.directives ++ " "
      ++ printSelections o.selections

/-- A fragment in source form. -/
def Fragment.print (f : Fragment) : String :=
  "fragment " ++ f.name ++ " on " ++ f.typeCondition ++ printDirectives f.directives ++ " "
    ++ printSelections f.selections

/-- A definition in source form. -/
def Definition.print : Definition → String
  | .operation o => o.print
  | .fragment f => f.print

/-- A document in source form. -/
def Document.print (d : Document) : String :=
  " ".intercalate (d.definitions.items.map Definition.print)

/-- A node in source form. -/
def Element.print : Element → String
  | .document d => d.print
  | .definition d => d.print
  | .variableDefinition v => v.print
  | .selection s => s.print
  | .directive d => d.print
  | .argument a => a.print

end Arborist.Query
