import Arborist.Query.Tree

/-!
# Labels of blocks

Two operations that leave a document as it reads and change only how its nodes are stored:

* `Element.relabel` gives every block a new label, so that no node occurs twice;
* `Element.erase` gives all blocks the same label. Two documents read the same exactly when they
  agree after erasure.
-/

namespace Arborist.Query

/-! ### New labels -/

variable {σ : Type} [Supply σ]

/-- Stores a directive with new blocks. -/
def Directive.relabel (d : Directive) : StateM σ Directive := do
  pure { d with arguments := ← Block.store d.arguments.items }

/-- Stores directives in new blocks. -/
def relabelDirectives (b : Block Directive) : StateM σ (Block Directive) := do
  Block.store (← b.items.mapM Directive.relabel)

/-- Stores a field's arguments and directives in new blocks. -/
def Field.relabel (f : Field) : StateM σ Field := do
  pure { f with
    arguments := ← Block.store f.arguments.items
    directives := ← relabelDirectives f.directives }

namespace Selection

mutual

/-- Stores a selection with new blocks throughout. -/
def relabel : Selection → StateM σ Selection
  | .field f ⟨_, items⟩ => do
    pure (.field (← f.relabel) (← Block.store (← relabelList items)))
  | .spread name directives => do
    pure (.spread name (← relabelDirectives directives))
  | .inline typeCondition directives ⟨_, items⟩ => do
    pure (.inline typeCondition (← relabelDirectives directives)
      (← Block.store (← relabelList items)))
termination_by structural selection => selection

/-- Stores selections with new blocks throughout. -/
def relabelList : List Selection → StateM σ (List Selection)
  | [] => pure []
  | selection :: rest => do
    pure ((← relabel selection) :: (← relabelList rest))
termination_by structural items => items

end

end Selection

/-- Stores a variable definition with new blocks. -/
def VariableDefinition.relabel (v : VariableDefinition) : StateM σ VariableDefinition := do
  pure { v with directives := ← relabelDirectives v.directives }

/-- Stores an operation with new blocks throughout. -/
def Operation.relabel (o : Operation) : StateM σ Operation := do
  pure { o with
    variableDefinitions :=
      ← Block.store (← o.variableDefinitions.items.mapM VariableDefinition.relabel)
    directives := ← relabelDirectives o.directives
    selections := ← Block.store (← Selection.relabelList o.selections.items) }

/-- Stores a fragment with new blocks throughout. -/
def Fragment.relabel (f : Fragment) : StateM σ Fragment := do
  pure { f with
    directives := ← relabelDirectives f.directives
    selections := ← Block.store (← Selection.relabelList f.selections.items) }

/-- Stores a definition with new blocks throughout. -/
def Definition.relabel : Definition → StateM σ Definition
  | .operation o => do pure (.operation (← o.relabel))
  | .fragment f => do pure (.fragment (← f.relabel))

/-- Stores a document with new blocks throughout. -/
def Document.relabel (d : Document) : StateM σ Document := do
  pure { definitions := ← Block.store (← d.definitions.items.mapM Definition.relabel) }

/-- Stores a node with **new blocks** throughout. -/
def Element.relabel : Element → StateM σ Element
  | .document d => do pure (.document (← d.relabel))
  | .definition d => do pure (.definition (← d.relabel))
  | .variableDefinition v => do pure (.variableDefinition (← v.relabel))
  | .selection s => do pure (.selection (← s.relabel))
  | .directive d => do pure (.directive (← d.relabel))
  | .argument a => pure (.argument a)

/-- Stores a node on its own, with new blocks throughout. -/
def Element.store (e : Element) : StateM σ Handle := do
  Ref.store (← e.relabel)

/-! ### One label for all -/

/-- Forgets the label of a block. -/
def Block.erase {α : Type} (b : Block α) : Block α :=
  ⟨0, b.items⟩

/-- Forgets the labels in a directive. -/
def Directive.erase (d : Directive) : Directive :=
  { d with arguments := d.arguments.erase }

/-- Forgets the labels in directives. -/
def eraseDirectives (b : Block Directive) : Block Directive :=
  ⟨0, b.items.map Directive.erase⟩

/-- Forgets the labels in a field. -/
def Field.erase (f : Field) : Field :=
  { f with arguments := f.arguments.erase, directives := eraseDirectives f.directives }

namespace Selection

mutual

/-- Forgets the labels in a selection. -/
def erase : Selection → Selection
  | .field f ⟨_, items⟩ => .field f.erase ⟨0, eraseList items⟩
  | .spread name directives => .spread name (eraseDirectives directives)
  | .inline typeCondition directives ⟨_, items⟩ =>
    .inline typeCondition (eraseDirectives directives) ⟨0, eraseList items⟩
termination_by structural selection => selection

/-- Forgets the labels in selections. -/
def eraseList : List Selection → List Selection
  | [] => []
  | selection :: rest => erase selection :: eraseList rest
termination_by structural items => items

end

end Selection

/-- Forgets the labels in a selection set. -/
def eraseSelections (b : Block Selection) : Block Selection :=
  ⟨0, Selection.eraseList b.items⟩

/-- Forgets the labels in a variable definition. -/
def VariableDefinition.erase (v : VariableDefinition) : VariableDefinition :=
  { v with directives := eraseDirectives v.directives }

/-- Forgets the labels in an operation. -/
def Operation.erase (o : Operation) : Operation :=
  { o with
    variableDefinitions := ⟨0, o.variableDefinitions.items.map VariableDefinition.erase⟩
    directives := eraseDirectives o.directives
    selections := eraseSelections o.selections }

/-- Forgets the labels in a fragment. -/
def Fragment.erase (f : Fragment) : Fragment :=
  { f with
    directives := eraseDirectives f.directives
    selections := eraseSelections f.selections }

/-- Forgets the labels in a definition. -/
def Definition.erase : Definition → Definition
  | .operation o => .operation o.erase
  | .fragment f => .fragment f.erase

/-- Forgets the labels in a document. -/
def Document.erase (d : Document) : Document :=
  ⟨⟨0, d.definitions.items.map Definition.erase⟩⟩

/-- **Forgets** how a node is stored. -/
def Element.erase : Element → Element
  | .document d => .document d.erase
  | .definition d => .definition d.erase
  | .variableDefinition v => .variableDefinition v.erase
  | .selection s => .selection s.erase
  | .directive d => .directive d.erase
  | .argument a => .argument a

end Arborist.Query
