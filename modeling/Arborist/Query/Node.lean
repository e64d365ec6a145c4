import Arborist.Adapter
import Arborist.Query.Tree

/-!
# Query nodes as trees

The children of a query node, grouped by role, and the adapter that rebuilds a node from other
children. Every role that a kind of node has is present, even when its list is empty.

A rebuilt node is new, and so is every node of a list that was replaced: the given nodes are
**copied** into a new block. What lies below the copies is shared with the nodes they were copied
from.
-/

namespace Arborist

namespace Role

/-- The definitions of a document. -/
def definitions : Role := .named "definitions"

/-- The variables of an operation. -/
def variableDefinitions : Role := .named "variableDefinitions"

/-- The directives of a node. -/
def directives : Role := .named "directives"

/-- The arguments of a field or a directive. -/
def arguments : Role := .named "arguments"

/-- The selections of a node. -/
def selections : Role := .named "selections"

/-- The definition behind a fragment spread, in walks that follow spreads. -/
def fragment : Role := .named "fragment"

end Role

namespace Error

/-- A node of this kind can't stand in this role. -/
def misplaced (kind : Query.Kind) (role : Role) : Error :=
  unbuildable (kind.display ++ " can't be placed in " ++ role.display)

/-- A node of this kind has no such role. -/
def unexpectedRole (kind : Query.Kind) (role : Role) : Error :=
  unbuildable ("A " ++ kind.display ++ " has no children under " ++ role.display)

end Error

namespace Query

/-! ### Children -/

/-- The nodes of a block as children. -/
def Block.handles {α : Type} (b : Block α) (element : α → Element) : List Handle :=
  b.refs.map (Ref.map element)

/-- The nodes of a selection set as children. -/
def selectionHandles (b : Block Selection) : List Handle :=
  b.handles .selection

/-- The children of a node, by role. -/
def Element.children : Element → Children Handle
  | .document d => ⟨[(.definitions, d.definitions.handles .definition)]⟩
  | .definition (.operation o) =>
    ⟨[(.variableDefinitions, o.variableDefinitions.handles .variableDefinition),
      (.directives, o.directives.handles .directive),
      (.selections, selectionHandles o.selections)]⟩
  | .definition (.fragment f) =>
    ⟨[(.directives, f.directives.handles .directive),
      (.selections, selectionHandles f.selections)]⟩
  | .variableDefinition v => ⟨[(.directives, v.directives.handles .directive)]⟩
  | .selection (.field f selections) =>
    ⟨[(.arguments, f.arguments.handles .argument),
      (.directives, f.directives.handles .directive),
      (.selections, selectionHandles selections)]⟩
  | .selection (.spread _ directives) => ⟨[(.directives, directives.handles .directive)]⟩
  | .selection (.inline _ directives selections) =>
    ⟨[(.directives, directives.handles .directive),
      (.selections, selectionHandles selections)]⟩
  | .directive d => ⟨[(.arguments, d.arguments.handles .argument)]⟩
  | .argument _ => ⟨[]⟩

/-- The children of a node, by role. -/
def Handle.children (h : Handle) : Children Handle :=
  h.value.children

/-! ### Rebuilding -/

/-- The node as a definition. -/
def Element.asDefinition : Element → Except Error Definition
  | .definition d => .ok d
  | e => .error (.misplaced e.kind .definitions)

/-- The node as a variable definition. -/
def Element.asVariable : Element → Except Error VariableDefinition
  | .variableDefinition v => .ok v
  | e => .error (.misplaced e.kind .variableDefinitions)

/-- The node as a selection. -/
def Element.asSelection : Element → Except Error Selection
  | .selection s => .ok s
  | e => .error (.misplaced e.kind .selections)

/-- The node as a directive. -/
def Element.asDirective : Element → Except Error Directive
  | .directive d => .ok d
  | e => .error (.misplaced e.kind .directives)

/-- The node as an argument. -/
def Element.asArgument : Element → Except Error Argument
  | .argument a => .ok a
  | e => .error (.misplaced e.kind .arguments)

variable {σ : Type} [Supply σ]

/-- Copies nodes into a new block; the first one that is out of place fails. -/
def copyBlock {α : Type} (convert : Element → Except Error α) (list : List Handle) :
    Attempt σ (Block α) := do
  let items ← Attempt.ofExcept (list.mapM fun h => convert h.value)
  ExceptT.lift (Block.store items)

/-- Replaces the children of a node under one role. -/
def Element.place (e : Element) (role : Role) (list : List Handle) : Attempt σ Element :=
  match e with
  | .document d => do
    if role = .definitions then
      pure (.document { d with definitions := ← copyBlock asDefinition list })
    else throw (.unexpectedRole e.kind role)
  | .definition (.operation o) => do
    if role = .variableDefinitions then
      pure (.definition (.operation { o with variableDefinitions := ← copyBlock asVariable list }))
    else if role = .directives then
      pure (.definition (.operation { o with directives := ← copyBlock asDirective list }))
    else if role = .selections then
      pure (.definition (.operation { o with selections := ← copyBlock asSelection list }))
    else throw (.unexpectedRole e.kind role)
  | .definition (.fragment f) => do
    if role = .directives then
      pure (.definition (.fragment { f with directives := ← copyBlock asDirective list }))
    else if role = .selections then
      pure (.definition (.fragment { f with selections := ← copyBlock asSelection list }))
    else throw (.unexpectedRole e.kind role)
  | .variableDefinition v => do
    if role = .directives then
      pure (.variableDefinition { v with directives := ← copyBlock asDirective list })
    else throw (.unexpectedRole e.kind role)
  | .selection (.field f selections) => do
    if role = .arguments then
      pure (.selection (.field { f with arguments := ← copyBlock asArgument list } selections))
    else if role = .directives then
      pure (.selection (.field { f with directives := ← copyBlock asDirective list } selections))
    else if role = .selections then
      pure (.selection (.field f (← copyBlock asSelection list)))
    else throw (.unexpectedRole e.kind role)
  | .selection (.spread name _) => do
    if role = .directives then
      pure (.selection (.spread name (← copyBlock asDirective list)))
    else throw (.unexpectedRole e.kind role)
  | .selection (.inline typeCondition directives selections) => do
    if role = .directives then
      pure (.selection (.inline typeCondition (← copyBlock asDirective list) selections))
    else if role = .selections then
      pure (.selection (.inline typeCondition directives (← copyBlock asSelection list)))
    else throw (.unexpectedRole e.kind role)
  | .directive d => do
    if role = .arguments then
      pure (.directive { d with arguments := ← copyBlock asArgument list })
    else throw (.unexpectedRole e.kind role)
  | .argument _ => throw (.unexpectedRole e.kind role)

/-- Replaces the children of a node under several roles, one after the other. -/
def Element.placeAll (e : Element) : List (Role × List Handle) → Attempt σ Element
  | [] => pure e
  | (role, list) :: rest => do
    let e ← e.place role list
    placeAll e rest

/-- A **new node** with the children under the given roles replaced. An argument has no children,
and is returned as it is. -/
def Handle.rebuild (h : Handle) (children : Children Handle) : Attempt σ Handle := do
  let e ← h.value.placeAll children.groups
  match e with
  | .argument _ => pure h
  | e => ExceptT.lift (Ref.store e)

/-- The adapter of query nodes. -/
def adapter : Adapter σ Handle where
  children := Handle.children
  rebuild := Handle.rebuild

end Query

end Arborist
