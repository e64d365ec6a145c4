/-!
# Errors

One error type serves walks, edits and analyses, and the callbacks that plug into them. An error
has a **kind**, a message, and an optional **context** that says where it arose. `Error.print`
writes it on one line, or on two when the context is asked for and present.
-/

namespace Arborist

/-- What an error is about. -/
inductive Error.Kind where
  /-- An error of a visitor or of an analysis of a query document. -/
  | graphQL
  /-- A broken usage contract, such as deleting a node twice. -/
  | invariant
  /-- A node was to be rebuilt from children that it can't hold. -/
  | adapter
deriving DecidableEq

/-- The words that open the printed form of an error of this kind. -/
def Error.Kind.title : Error.Kind → String
  | .graphQL => "GraphQL Error"
  | .invariant => "Invariant Violation"
  | .adapter => "Adapter Error"

/-- An **error**: a message of some kind, with an optional context. -/
structure Error where
  kind : Error.Kind
  message : String
  context : Option String := none
deriving DecidableEq

namespace Error

/-- The error with this message and, unless another is given, the kind `graphQL`. -/
def ofMessage (message : String) (kind : Option Kind := none) (context : Option String := none) :
    Error :=
  { kind := kind.getD .graphQL, message, context }

/-- An error of a query document, without a context. -/
def query (message : String) : Error :=
  { kind := .graphQL, message }

/-- A broken usage contract, without a context. -/
def violation (message : String) : Error :=
  { kind := .invariant, message }

/-- A broken usage contract at a known place. -/
def violationAt (place message : String) : Error :=
  { kind := .invariant, message, context := some place }

/-- A failed rebuild, without a context. -/
def unbuildable (message : String) : Error :=
  { kind := .adapter, message }

/-- The **printed form**: the title of the kind and the message, then, if `withContext` holds and
there is a context, the context on a line of its own. -/
def print (e : Error) (withContext : Bool) : String :=
  let line := e.kind.title ++ ": " ++ e.message
  match e.context with
  | some context => if withContext then line ++ "\n" ++ context else line
  | none => line

/-- Shown to a user, an error is printed with its context. -/
def display (e : Error) : String :=
  e.print true

/-- Shown to a developer, an error stands on lines of its own. -/
def debug (e : Error) : String :=
  "\n" ++ e.display ++ "\n"

instance : ToString Error := ⟨display⟩

/-- Without a context the long and the short printed form agree. -/
theorem print_of_context_eq_none {e : Error} (h : e.context = none) (b : Bool) :
    e.print b = e.print false := by
  simp [print, h]

end Error

end Arborist
