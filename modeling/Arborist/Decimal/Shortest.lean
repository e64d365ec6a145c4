import Arborist.Decimal.Binary64

/-!
# Shortest decimals

The numbers that round to a binary64 number form an interval around it. `shortest` gives the decimal
with the **fewest digits** in that interval, and of those the nearest to the number itself. For one
digit, two digits and so on, up to seventeen, it looks at the two neighbours of the number on the
grid of decimals with that many digits. All comparisons are made in exact arithmetic.

How a decimal is laid out as text is decided by a `Style`.
-/

namespace Arborist.Decimal

/-- Where to go when two decimals are equally near. -/
inductive Tie where
  | up
  | toEven
deriving DecidableEq

/-- The positive decimal `digits · 10 ^ exponent`. -/
structure Scientific where
  digits : Nat
  exponent : Int
deriving DecidableEq

/-- Compares multiples of a power of ten with multiples of a power of two: `a · 10 ^ k` stands to
`b · 2 ^ e` as `a · scale.1` to `b · scale.2`. -/
def scale (k e : Int) : Nat × Nat :=
  (tenPow k.toNat * twoPow (-e).toNat, twoPow e.toNat * tenPow (-k).toNat)

/-- The largest `k` with `10 ^ k ≤ m · 2 ^ e`, for a positive `m`. -/
def decimalExponent (m : Nat) (e : Int) : Int :=
  let guess := (((m.log2 : Int) + e) * 30103).fdiv 100000
  let exceeds (k : Int) : Bool :=
    let (s, t) := scale k e
    m * t < s
  if exceeds guess then guess - 1
  else if exceeds (guess + 1) then guess
  else guess + 1

/-- Four times the significands at which the interval of a number begins and ends. Below a power of
two the numbers lie twice as close. -/
def bounds (x : Binary64) : Nat × Nat :=
  let lower :=
    if x.significand = twoPow 52 ∧ Binary64.minExponent < x.exponent then 4 * x.significand - 1
    else 4 * x.significand - 2
  (lower, 4 * x.significand + 2)

/-- The neighbour of a positive number on the grid of multiples of `10 ^ k` that lies in its
interval; of two such neighbours the nearer one. -/
def onGrid? (tie : Tie) (x : Binary64) (k : Int) : Option Nat :=
  let (s, t) := scale k (x.exponent - 2)
  let (lower, upper) := bounds x
  let closed := x.significand % 2 = 0
  let below := 4 * x.significand * t / s
  let above := below + 1
  let belowFits := lower * t < below * s ∨ (closed ∧ lower * t = below * s)
  let aboveFits := above * s < upper * t ∨ (closed ∧ above * s = upper * t)
  let gapBelow := 4 * x.significand * t - below * s
  let gapAbove := above * s - 4 * x.significand * t
  if belowFits then
    if aboveFits then
      if gapBelow < gapAbove then some below
      else if gapAbove < gapBelow then some above
      else match tie with
        | .up => some above
        | .toEven => if below % 2 = 0 then some below else some above
    else some below
  else if aboveFits then some above
  else none

/-- Drops trailing zeros, at most as many as `limit`. -/
def Scientific.trim : Nat → Scientific → Scientific
  | 0, d => d
  | limit + 1, d =>
    if d.digits ≠ 0 ∧ d.digits % 10 = 0 then trim limit ⟨d.digits / 10, d.exponent + 1⟩ else d

/-- The first grid with a hit, from `digits` digits on, trying at most `limit` of them. -/
def firstHit? (tie : Tie) (x : Binary64) (top : Int) : Nat → Nat → Option Scientific
  | 0, _ => none
  | limit + 1, digits =>
    let k := top + 1 - digits
    match onGrid? tie x k with
    | some n => some ⟨n, k⟩
    | none => firstHit? tie x top limit (digits + 1)

/-- The **shortest decimal** that rounds to a positive number. Seventeen digits are always
enough. -/
def shortest (tie : Tie) (x : Binary64) : Scientific :=
  ((firstHit? tie x (decimalExponent x.significand x.exponent) 17 1).getD ⟨0, 0⟩).trim 17

/-! ### Layout -/

/-- How a decimal is laid out. -/
structure Style where
  /-- The decimal exponents that are written without an exponent; all of them if none are given. -/
  plain : Option (Int × Int)
  /-- Whether a whole number is written with a fractional digit. -/
  pointed : Bool
  tie : Tie

/-- Zeros. -/
def zeros (n : Nat) : String :=
  String.ofList (List.replicate n '0')

/-- A decimal without an exponent. -/
def Scientific.positional (pointed : Bool) (d : Scientific) : String :=
  let digits := Nat.toDigits 10 d.digits
  let shift := (-d.exponent).toNat
  if 0 ≤ d.exponent then
    String.ofList digits ++ zeros d.exponent.toNat ++ (if pointed then ".0" else "")
  else if shift < digits.length then
    String.ofList (digits.take (digits.length - shift)) ++ "."
      ++ String.ofList (digits.drop (digits.length - shift))
  else
    "0." ++ zeros (shift - digits.length) ++ String.ofList digits

/-- A decimal with an exponent: one digit before the point, and the sign of the exponent. -/
def Scientific.exponential (d : Scientific) : String :=
  let digits := Nat.toDigits 10 d.digits
  let e := d.exponent + digits.length - 1
  String.ofList (digits.take 1)
    ++ (if digits.length = 1 then "" else "." ++ String.ofList (digits.drop 1))
    ++ "e" ++ (if e < 0 then "-" else "+") ++ toString e.natAbs

/-- A decimal in a style. -/
def Scientific.layout (style : Style) (d : Scientific) : String :=
  let e := d.exponent + digitCount d.digits - 1
  match style.plain with
  | some (least, greatest) =>
    if least ≤ e ∧ e ≤ greatest then d.positional style.pointed else d.exponential
  | none => d.positional style.pointed

/-- A number in a style: the shortest decimal with its sign. -/
def Binary64.print (style : Style) (x : Binary64) : String :=
  (if x.negative then "-" else "")
    ++ (if x.significand = 0 then Scientific.layout style ⟨0, 0⟩
      else (shortest style.tie x).layout style)

end Arborist.Decimal
