import Arborist.Decimal.Integer

/-!
# Binary floating point

A finite **binary64** number is a sign, a significand of at most 53 bits and a power of two. Decimal
numerals are read in exact arithmetic: the quotient that a numeral stands for is rounded to the
nearest number, and a tie goes to the even significand.
-/

namespace Arborist.Decimal

/-- A power of two. -/
def twoPow (n : Nat) : Nat :=
  Nat.pow 2 n

/-- A power of ten. -/
def tenPow (n : Nat) : Nat :=
  Nat.pow 10 n

/-- The finite number `± significand · 2 ^ exponent`. The significand has 53 bits, or fewer at the
smallest exponent. -/
structure Binary64 where
  negative : Bool
  significand : Nat
  exponent : Int
deriving DecidableEq

namespace Binary64

/-- The smallest exponent. -/
def minExponent : Int := -1074

/-- The largest exponent. -/
def maxExponent : Int := 971

/-- Zero, with a sign. -/
def zero (negative : Bool) : Binary64 :=
  ⟨negative, 0, minExponent⟩

/-- The 64 bits of the interchange format, as a number: the sign, the biased exponent and the
fraction after the leading bit. -/
def bits (x : Binary64) : Nat :=
  let sign := if x.negative then twoPow 63 else 0
  if x.significand < twoPow 52 then sign + x.significand
  else sign + (x.exponent + 1075).toNat * twoPow 52 + (x.significand - twoPow 52)

/-- The bits as 16 hexadecimal digits. -/
def hex (x : Binary64) : String :=
  let digits := Nat.toDigits 16 x.bits
  String.ofList (List.replicate (16 - digits.length) '0' ++ digits)

end Binary64

/-! ### Rounding quotients -/

/-- The whole number nearest to `n / d`, with ties to even. -/
def roundDiv (n d : Nat) : Nat :=
  let q := n / d
  let r := n % d
  if d < 2 * r ∨ (2 * r = d ∧ q % 2 = 1) then q + 1 else q

/-- The whole number nearest to `n / d / 2 ^ e`, with ties to even. -/
def roundScaled (n d : Nat) (e : Int) : Nat :=
  roundDiv (n * twoPow (-e).toNat) (d * twoPow e.toNat)

/-- The exponent at which the positive quotient `n / d` has a significand of 53 bits, or the
smallest exponent if that is larger. -/
def exponentOf (n d : Nat) : Int :=
  let e : Int := (n.log2 : Int) - d.log2 - 52
  let e := if n * twoPow (-e).toNat < twoPow 52 * (d * twoPow e.toNat) then e - 1 else e
  max e Binary64.minExponent

/-- The number nearest to the positive quotient `n / d`; none if it is too large. -/
def nearest (negative : Bool) (n d : Nat) : Option Binary64 :=
  let e := exponentOf n d
  let m := roundScaled n d e
  let (m, e) := if m = twoPow 53 then (twoPow 52, e + 1) else (m, e)
  if Binary64.maxExponent < e then none else some ⟨negative, m, e⟩

/-- The number nearest to an integer; zero stands in for the nearest to one that is too large. -/
def Binary64.ofInt (i : Int) : Binary64 :=
  if i = 0 then zero false
  else (nearest (i < 0) i.natAbs 1).getD (zero false)

/-- The number of decimal digits. -/
def digitCount (n : Nat) : Nat :=
  (Nat.toDigits 10 n).length

/-- The number nearest to `± n · 10 ^ e`; none if it is too large. Powers are only taken of
exponents at which the result is neither zero nor too large for certain. -/
def ofScientific (negative : Bool) (n : Nat) (e : Int) : Option Binary64 :=
  if n = 0 then some (.zero negative)
  else
    let magnitude := (digitCount n : Int) + e
    if 310 ≤ magnitude then none
    else if magnitude ≤ -324 then some (.zero negative)
    else nearest negative (n * tenPow e.toNat) (tenPow (-e).toNat)

/-! ### Reading numerals -/

/-- What a numeral stands for. -/
inductive Numeral where
  | finite (x : Binary64)
  /-- An infinity, or not a number. -/
  | nonFinite

/-- The exponent part of a numeral: nothing, or a letter, an optional sign and digits. -/
def exponent? : List Char → Option Int
  | [] => some 0
  | c :: rest =>
    if c = 'e' ∨ c = 'E' then
      let (negative, digits) := splitSign rest
      (natural? digits).map fun n => if negative then -n else n
    else none

/-- Whether a character is a decimal digit. -/
def isDigit (c : Char) : Bool :=
  (digit? c).isSome

/-- The digits of a numeral before and after its point, and what follows. -/
def splitPoint (cs : List Char) : List Char × List Char × List Char :=
  let whole := cs.takeWhile isDigit
  match cs.dropWhile isDigit with
  | '.' :: rest => (whole, rest.takeWhile isDigit, rest.dropWhile isDigit)
  | rest => (whole, [], rest)

/-- Reads a numeral without its sign. -/
def unsigned? (negative : Bool) (cs : List Char) : Option Numeral :=
  if ["inf", "infinity", "nan"].any (fun word => word.toList = cs.map Char.toLower) then
    some .nonFinite
  else
    let (whole, fraction, rest) := splitPoint cs
    match natural? (whole ++ fraction), exponent? rest with
    | some n, some e =>
      match ofScientific negative n (e - fraction.length) with
      | some x => some (.finite x)
      | none => some .nonFinite
    | _, _ => none

/-- Reads a **numeral**: an optional sign, then digits with an optional point and exponent, or one
of the words for infinities and not-a-number in any case. -/
def numeral? (text : String) : Option Numeral :=
  let (negative, cs) := splitSign text.toList
  unsigned? negative cs

end Arborist.Decimal
