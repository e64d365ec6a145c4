import Arborist.Analysis.Selections
import Arborist.Traversal.Walk

/-!
# Fragments in order of dependency

`inOrder` lists the fragments of a document so that each comes after all fragments that it spreads.
It searches depth-first from each fragment in the order of the names, whatever the order in which the
fragments are given. A fragment is marked as open while what it spreads is searched, and as done when
it is listed; meeting one that is open is a **cycle**. Spreads of fragments that are not defined are
passed over.

What a fragment spreads is found by a walk over its selections, so a spread counts wherever it is
nested in fields and inline fragments (`spreadNames`).
-/

namespace Arborist.Analysis

open Query

/-! ### Names of spreads -/

/-- The callbacks of a walk that notes names. -/
abbrev NameCallback :=
  Callback (List String) (Cursor Handle Unit NoVar) (Request Handle Unit NoVar)

/-- Notes the name of a spread. -/
def noteSpread : NameCallback Control := do
  let cursor ← Callback.view
  match cursor.here.node.value.spread? with
  | some name =>
    modify (· ++ [name])
    pure .proceed
  | none => pure .proceed

/-- The visitor that notes the names of spreads, one after the other. -/
def spreadVisitor : Traversal.SequentialVisitor (List String) Handle Unit NoVar where
  enter := noteSpread

/-- The **names of the fragments that a fragment spreads**, as a walk over its selections meets them.
Every node is visited once for each place where it stands, and left at most once, so the walk ends
within the limit. -/
def spreadNames (f : Ref Fragment) : Except Interrupt (List String) :=
  let plan : Traversal.Plan Handle Unit NoVar := { children := selectionChildren, initial := () }
  match (Traversal.traverse plan spreadVisitor (2 * f.value.size) [f.ofFragment]).runWith [] with
  | (.ok _, names) => .ok names
  | (.error i, _) => .error i

/-! ### The search -/

/-- How far a fragment has come. -/
inductive Mark where
  /-- What the fragment spreads is being searched. -/
  | isOpen
  /-- The fragment is listed. -/
  | isDone
deriving DecidableEq

/-- What a search has come to: the marks of the fragments by name, and the fragments that are
listed. -/
structure Listing where
  marks : Dict Mark := []
  order : List (Ref Fragment) := []

/-- Marks the fragment of a name. -/
def Listing.mark (l : Listing) (name : String) (m : Mark) : Listing :=
  { l with marks := l.marks.insert name m }

/-- Lists a fragment after all that it spreads. On the way down every fragment is marked as open, so
a way that is longer than there are fragments does not go on. -/
def addInOrder (fragment? : String → Option (Ref Fragment)) :
    Nat → Ref Fragment → Listing → Except Interrupt Listing
  | 0, _, _ => .error .exhausted
  | limit + 1, f, l =>
    match l.marks.find? f.value.name with
    | some .isDone => .ok l
    | some .isOpen => .error (.failed (.fragmentCycle f.value.name))
    | none => do
      let opened := l.mark f.value.name .isOpen
      let names ← spreadNames f
      let below ← names.foldlM (fun l name =>
        match fragment? name with
        | some g => addInOrder fragment? limit g l
        | none => .ok l) opened
      let listed := below.mark f.value.name .isDone
      pure { listed with order := listed.order ++ [f] }

/-- The fragments of a document by name, in **whatever order** a hash map gives its entries. There is
one entry for each name. -/
abbrev Fragments := List (String × Ref Fragment)

/-- The names of the fragments, sorted. -/
def Fragments.names (fragments : Fragments) : List String :=
  (fragments.map Prod.fst).mergeSort (· ≤ ·)

/-- Searches from all fragments, one after the other, in the order of their names. -/
def Fragments.search (fragments : Fragments) (limit : Nat) : Except Interrupt Listing :=
  fragments.names.foldlM (fun l name =>
    match Dict.find? name fragments with
    | some f => addInOrder (Dict.find? · fragments) limit f l
    | none => .ok l) {}

/-- The fragments, **each after all that it spreads**. No way down is longer than there are
fragments. -/
def inOrder (fragments : Fragments) : Except Interrupt (List (Ref Fragment)) := do
  let l ← fragments.search (fragments.length + 1)
  pure l.order

end Arborist.Analysis
