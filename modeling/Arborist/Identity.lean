/-!
# Node identity

Walks recognise a node that they have met before by its **identity**, not by its contents: two
nodes with equal contents are still two nodes. A type of nodes says through `Identified` what the
identity of a node is, and a state that hands out new identities is a `Supply`.
-/

namespace Arborist

/-- Nodes that carry an identity. -/
class Identified (N : Type) where
  /-- The type of identities. -/
  Identity : Type
  /-- Identities can be compared. -/
  decEq : DecidableEq Identity
  /-- The identity of a node. -/
  identity : N → Identity

export Identified (Identity identity)

instance {N : Type} [Identified N] : DecidableEq (Identity N) := Identified.decEq

/-- Whether two handles refer to one node. -/
def sameNode {N : Type} [Identified N] (a b : N) : Bool :=
  identity a = identity b

/-- States that can hand out a number they have not handed out before. -/
class Supply (σ : Type) where
  /-- The next number, and the state that has handed it out. -/
  fresh : σ → Nat × σ

/-- A counter supplies its own value. -/
instance : Supply Nat := ⟨fun n => (n, n + 1)⟩

/-- A node that was stored on its own: contents together with the number it got when stored. -/
structure Cell (α : Type) where
  serial : Nat
  contents : α

/-- A cell is identified by its number alone. -/
instance {α : Type} : Identified (Cell α) where
  Identity := Nat
  decEq := inferInstance
  identity := Cell.serial

/-- Stores contents in a new cell. -/
def Cell.store {α σ : Type} [Supply σ] (contents : α) (s : σ) : Cell α × σ :=
  let (serial, s) := Supply.fresh s
  (⟨serial, contents⟩, s)

/-- For each handle, the position of the first handle that refers to the same node. -/
def identityClasses {N : Type} [Identified N] (handles : List N) : List Nat :=
  handles.map fun h => handles.findIdx (sameNode h)

end Arborist
