import Arborist.Error
import Arborist.Children
import Arborist.Zipper

/-!
# Splicing an edit into a list of children

`Children.splice` applies one edit at a location. Earlier edits of the same role have moved the
children by some **shift**, which is added to the index of the location. Indices are machine words
of 64 bits: the sum is taken in two's complement, and it has to fall into the list.
-/

namespace Arborist

namespace Error

/-- A location names a role that the parent lacks. -/
def missingRole (role : Role) : Error :=
  violation ("The parent has no children under the role `" ++ role.display ++ "`")

/-- A location lies outside its list of children. -/
def outOfRange (location : Location) (count : Nat) : Error :=
  violation ("The location " ++ location.display ++ " is out of range for " ++ toString count
    ++ " children")

end Error

/-- The signed reading of a sum of 64-bit words: the representative modulo two to the power of 64
that is nearest to zero. -/
def signedWord (x : Int) : Int :=
  x.bmod 18446744073709551616

/-- The place an edit works at: its index moved by the shift, and by one more to get behind a
child. -/
def Edit.target (edit : Edit) (index : Nat) (shift : Int) : Int :=
  signedWord (index + shift + if edit = .insertAfter then 1 else 0)

/-- The number of places at which an edit can work in a list of `length` children. -/
def Edit.places (edit : Edit) (length : Nat) : Nat :=
  if edit.inserts then length + 1 else length

/-- Applies an edit to a list at a place inside it. -/
def Edit.applyAt {N : Type} (edit : Edit) (list : List N) (i : Nat) (node : N) : List N :=
  match edit with
  | .replace => list.set i node
  | .delete => list.eraseIdx i
  | .insertBefore | .insertAfter => list.insertIdx i node

/-- **Splices** one edit into the children of a node. -/
def Children.splice {N : Type} (c : Children N) (location : Location) (shift : Int) (edit : Edit)
    (node : N) : Except Error (Children N) :=
  match c.get? location.role with
  | none => .error (.missingRole location.role)
  | some list =>
    let i := edit.target location.index shift
    if 0 ≤ i ∧ i < edit.places list.length then
      .ok (c.insert location.role (edit.applyAt list i.toNat node))
    else
      .error (.outOfRange location list.length)

end Arborist
