import Arborist.Adapter
import Arborist.Identity

/-!
# Graphs given by tables

A **table** gives the children of nodes by name, role by role. Every name is exactly one node,
however often it occurs, so a table can describe shared subtrees and cycles; a name without an entry
is a leaf. Rebuilding a node makes a new node of the same name that is told apart by a serial
number.

`Table.render` writes a node with everything below it, and stops at a node that is already open.
-/

namespace Arborist

namespace Error

/-- The table does not let this node be rebuilt. -/
def rejectedNode (name : String) : Error :=
  unbuildable (name ++ " can't be rebuilt")

/-- A node was to be rebuilt with a role that it lacks. -/
def roleNotHeld (name : String) (role : Role) : Error :=
  unbuildable (name ++ " has no children under role `" ++ role.display ++ "`")

end Error

namespace Graph

/-- A node of a graph. -/
inductive Node where
  /-- The node of this name in the table. -/
  | listed (name : String)
  /-- A rebuilt node, with children of its own. -/
  | built (serial : Nat) (name : String) (children : Children Node)

/-- The identity of a node: its name in the table, or its serial number. -/
inductive Tag where
  | listed (name : String)
  | built (serial : Nat)
deriving DecidableEq

/-- Which node it is. -/
def Node.tag : Node → Tag
  | .listed name => .listed name
  | .built serial _ _ => .built serial

instance : Identified Node where
  Identity := Tag
  decEq := inferInstance
  identity := Node.tag

/-- A node is labelled by its name. -/
def Node.label : Node → String
  | .listed name => name
  | .built _ name _ => name

/-- The children of named nodes, and the names whose nodes can't be rebuilt. -/
structure Table where
  entries : List (String × Children String)
  rejected : List String := []

namespace Table

/-- The children of a node. -/
def children (t : Table) : Node → Children Node
  | .listed name => ((t.entries.lookup name).getD .empty).map Node.listed
  | .built _ _ children => children

/-- Replaces lists of children under roles that have to be there. -/
def replaceAll (name : String) (children : Children Node) :
    List (Role × List Node) → Except Error (Children Node)
  | [] => .ok children
  | (role, list) :: rest =>
    match children.get? role with
    | none => .error (.roleNotHeld name role)
    | some _ => replaceAll name (children.insert role list) rest

/-- A new node of the same name with other children. -/
def rebuild {σ : Type} [Supply σ] (t : Table) (node : Node) (children : Children Node) :
    Attempt σ Node := do
  if node.label ∈ t.rejected then
    throw (.rejectedNode node.label)
  else
    let children ← Attempt.ofExcept (replaceAll node.label (t.children node) children.groups)
    let serial ← modifyGet Supply.fresh
    pure (.built serial node.label children)

/-- The adapter of the graph. -/
def adapter {σ : Type} [Supply σ] (t : Table) : Adapter σ Node where
  children := t.children
  rebuild := t.rebuild

/-! ### Rendering -/

/-- Groups of rendered children in braces; nothing for a node without roles. -/
def renderGroups : List (Role × List String) → String
  | [] => ""
  | groups =>
    "\x7b" ++ ";".intercalate (groups.map fun (role, list) =>
      role.display ++ ":" ++ ",".intercalate list) ++ "\x7d"

/-- Renders the node of a name, given the names that are open around it. A way longer than the table
repeats a name, so `limit` only has to exceed the number of entries. -/
def renderListed (t : Table) : Nat → List String → String → String
  | 0, _, name => name ++ "^"
  | limit + 1, around, name =>
    if name ∈ around then name ++ "^"
    else
      name ++ renderGroups (((t.entries.lookup name).getD .empty).groups.map fun (role, list) =>
        (role, list.map (renderListed t limit (name :: around))))

mutual

/-- **Renders** a node: its name, with a star in front if it was rebuilt, and its children. -/
def render (t : Table) : Node → String
  | .listed name => t.renderListed (t.entries.length + 2) [] name
  | .built _ name ⟨groups⟩ => "*" ++ name ++ renderGroups (renderAll t groups)
termination_by structural node => node

/-- Renders the nodes of some groups. -/
def renderAll (t : Table) : List (Role × List Node) → List (Role × List String)
  | [] => []
  | (role, list) :: rest => (role, renderList t list) :: renderAll t rest
termination_by structural groups => groups

/-- Renders the nodes of one group. -/
def renderList (t : Table) : List Node → List String
  | [] => []
  | node :: rest => render t node :: renderList t rest
termination_by structural list => list

end

end Table

end Graph

end Arborist
