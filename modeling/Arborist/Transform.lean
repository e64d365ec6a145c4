import Arborist.Traversal.Walk

/-!
# Transformations

A **transformation** walks a tree depth-first while it records the edits that its visitor makes, and
then applies all of them together. The tree itself is never changed, and what was not edited is
shared between the old and the new tree.
-/

namespace Arborist

variable {σ N κ : Type} {β : κ → Type} [Identified N] [DecidableEq κ]

/-- The visitors of transformations, which have nothing to accumulate. -/
abbrev TransformVisitor (σ N : Type) {κ : Type} (β : κ → Type) [Identified N] :=
  Traversal.SequentialVisitor σ N Unit β

/-- **Transforms** the tree below `root`: the new root, or none if the root was deleted. A failure
of the visitor stops the walk, and no tree is built. -/
def transform (adapter : Adapter σ N) (visitor : TransformVisitor σ N β) (rootVars : Vars β)
    (limit : Nat) (root : N) : Walk σ (Option N) := do
  let plan : Traversal.Plan N Unit β :=
    { children := adapter.children, initial := (), rootVars }
  let s ← Traversal.walk plan visitor true limit [root]
  Walk.ofAttempt (Batch.toRoot adapter { root, zippers := s.ledger.edits.getD [] })

end Arborist
