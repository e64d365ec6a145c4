import Arborist.Identity

/-!
# Blocks of siblings

The children of a query node under one role are stored together in a **block**. A block has a label,
and the node at position `i` of the block is identified by the label and `i`. Copying a node copies
the labels of its blocks, so copies of one node have the same nodes as children, while the copies
themselves are told apart by the blocks they stand in.
-/

namespace Arborist.Query

/-- The identity of a node: the block it stands in, and its position there. -/
structure NodeId where
  block : Nat
  offset : Nat
deriving DecidableEq

/-- Nodes that are stored together. -/
structure Block (α : Type) where
  label : Nat
  items : List α

/-- A block without nodes. -/
def Block.empty {α : Type} : Block α := ⟨0, []⟩

/-- Blocks are equal when their nodes are, whatever their labels. -/
instance {α : Type} [BEq α] : BEq (Block α) := ⟨fun a b => a.items == b.items⟩

/-- A node together with its identity. -/
structure Ref (α : Type) where
  id : NodeId
  value : α

instance {α : Type} : Identified (Ref α) where
  Identity := NodeId
  decEq := inferInstance
  identity := Ref.id

variable {α γ σ : Type}

/-- The nodes of a block with their identities. -/
def Block.refs (b : Block α) : List (Ref α) :=
  b.items.mapIdx fun i a => ⟨⟨b.label, i⟩, a⟩

/-- Looks at the node in another way; it stays the same node. -/
def Ref.map (f : α → γ) (r : Ref α) : Ref γ :=
  ⟨r.id, f r.value⟩

/-- Stores nodes in a new block. -/
def Block.store [Supply σ] (items : List α) : StateM σ (Block α) := do
  let label ← modifyGet Supply.fresh
  pure ⟨label, items⟩

/-- Stores a single node in a block of its own. -/
def Ref.store [Supply σ] (value : α) : StateM σ (Ref α) := do
  let label ← modifyGet Supply.fresh
  pure ⟨⟨label, 0⟩, value⟩

@[simp] theorem Block.map_value_refs (b : Block α) : b.refs.map Ref.value = b.items := by
  apply List.ext_getElem <;> simp [refs]

end Arborist.Query
