/-!
# Decimal integers

Reading and writing integers in decimal notation, with the range of signed 64-bit words.
-/

namespace Arborist.Decimal

/-- The value of a decimal digit. -/
def digit? (c : Char) : Option Nat :=
  if '0' ≤ c ∧ c ≤ '9' then some (c.toNat - '0'.toNat) else none

/-- The number that a sequence of digits continues. -/
def digitsFrom (n : Nat) : List Char → Option Nat
  | [] => some n
  | c :: rest =>
    match digit? c with
    | some d => digitsFrom (10 * n + d) rest
    | none => none

/-- The number written by a sequence of one or more digits. -/
def natural? : List Char → Option Nat
  | [] => none
  | cs => digitsFrom 0 cs

/-- A leading sign, if there is one, and what follows: `true` stands for a minus. -/
def splitSign : List Char → Bool × List Char
  | '-' :: rest => (true, rest)
  | '+' :: rest => (false, rest)
  | cs => (false, cs)

/-- Whether an integer is a signed 64-bit word. -/
def fitsInt64 (i : Int) : Bool :=
  -9223372036854775808 ≤ i && i ≤ 9223372036854775807

/-- Whether an integer is an unsigned 64-bit word. -/
def fitsUInt64 (i : Int) : Bool :=
  0 ≤ i && i ≤ 18446744073709551615

/-- Reads a signed 64-bit word: an optional sign and one or more digits. -/
def int64? (text : String) : Option Int :=
  let (negative, digits) := splitSign text.toList
  match natural? digits with
  | some n =>
    let i : Int := if negative then -n else n
    if fitsInt64 i then some i else none
  | none => none

end Arborist.Decimal
