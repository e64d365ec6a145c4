import Arborist.Decimal.Shortest
import Mathlib

/-!
# Rounding to binary64 numbers

Every binary64 number other than zero **attracts** the rationals around it (`Binary64.Attracts`):
those between the middles to its two neighbours, and the middles themselves if its significand is
even. `nearest_of_attracts` says that a quotient is rounded to the number that attracts it, whatever
its numerator and denominator are.

The exponent is where this takes care (`exists_exponentOf`). Below a power of two the numbers lie
twice as close, so a quotient that is attracted by one from below has the exponent of its lower
neighbours, and gets the power of two only when its significand is rounded up to 54 bits.

* `scale_fst`, `scale_snd`: the two factors with which multiples of powers are compared.
* `nearest_wellFormed`: what quotients are rounded to is **well-formed**.
-/

namespace Arborist.Decimal

/-! ### Powers -/

theorem zpow_mul_toNat {b : ℚ} (hb : b ≠ 0) (k : ℤ) : b ^ k * b ^ (-k).toNat = b ^ k.toNat := by
  obtain ⟨n, rfl | rfl⟩ := k.eq_nat_or_neg
  · simp
  · simp [hb]

theorem cast_twoPow (n : ℕ) : (twoPow n : ℚ) = 2 ^ n := by
  show ((2 ^ n : ℕ) : ℚ) = 2 ^ n
  push_cast
  rfl

theorem cast_tenPow (n : ℕ) : (tenPow n : ℚ) = 10 ^ n := by
  show ((10 ^ n : ℕ) : ℚ) = 10 ^ n
  push_cast
  rfl

/-- What both factors of a scale have in common. -/
def scaleUnit (k e : ℤ) : ℚ :=
  10 ^ (-k).toNat * 2 ^ (-e).toNat

theorem scaleUnit_pos (k e : ℤ) : 0 < scaleUnit k e := by
  unfold scaleUnit
  positivity

theorem scale_fst (k e : ℤ) : ((scale k e).1 : ℚ) = 10 ^ k * scaleUnit k e := by
  have hten := zpow_mul_toNat (b := 10) (by norm_num) k
  rw [scaleUnit, ← mul_assoc, hten, scale, Nat.cast_mul, cast_tenPow, cast_twoPow]

theorem scale_snd (k e : ℤ) : ((scale k e).2 : ℚ) = 2 ^ e * scaleUnit k e := by
  have htwo := zpow_mul_toNat (b := 2) (by norm_num) e
  rw [scaleUnit, mul_comm (10 ^ _), ← mul_assoc, htwo, scale, Nat.cast_mul, cast_tenPow,
    cast_twoPow]

theorem two_zpow_le_iff {j k : ℤ} : (2 : ℚ) ^ j ≤ 2 ^ k ↔ j ≤ k :=
  zpow_le_zpow_iff_right₀ (by norm_num)

theorem two_zpow_lt_iff {j k : ℤ} : (2 : ℚ) ^ j < 2 ^ k ↔ j < k :=
  zpow_lt_zpow_iff_right₀ (by norm_num)

/-! ### Whole numbers -/

/-- A quotient is rounded to the whole number that is not farther than one half from it, and that is
even if it is one half from it. -/
theorem roundDiv_eq {a b r : ℕ} (hb : 0 < b) (hlower : 2 * (r * b) ≤ 2 * a + b)
    (hupper : 2 * a ≤ 2 * (r * b) + b)
    (htie : 2 * (r * b) = 2 * a + b ∨ 2 * a = 2 * (r * b) + b → r % 2 = 0) : roundDiv a b = r := by
  have hdiv : a / b * b + a % b = a := Nat.div_add_mod' a b
  have hmod : a % b < b := Nat.mod_lt a hb
  obtain rfl | rfl : r = a / b ∨ r = a / b + 1 := by
    have hle : a / b ≤ r := by
      by_contra hlt
      have hmul : (r + 1) * b ≤ a / b * b := Nat.mul_le_mul_right b (by omega)
      rw [Nat.succ_mul] at hmul
      omega
    have hge : r ≤ a / b + 1 := by
      by_contra hlt
      have hmul : (a / b + 2) * b ≤ r * b := Nat.mul_le_mul_right b (by omega)
      rw [Nat.add_mul] at hmul
      omega
    omega
  · rw [roundDiv, if_neg]
    rintro (hlt | ⟨heq, hodd⟩)
    · omega
    · have heven := htie (.inr (by omega))
      omega
  · have hmul : (a / b + 1) * b = a / b * b + b := Nat.succ_mul _ _
    rw [hmul] at hlower hupper htie
    rw [roundDiv, if_pos]
    by_cases hlt : b < 2 * (a % b)
    · exact .inl hlt
    · have heven := htie (.inl (by omega))
      exact .inr ⟨by omega, by omega⟩

theorem roundDiv_le {a b r : ℕ} (h : a < r * b) : roundDiv a b ≤ r := by
  have hlt : a / b < r := Nat.div_lt_of_lt_mul (by rwa [Nat.mul_comm])
  rw [roundDiv]
  split <;> omega

theorem le_roundDiv {a b r : ℕ} (hb : 0 < b) (h : r * b ≤ a) : r ≤ roundDiv a b := by
  have hle : r ≤ a / b := (Nat.le_div_iff_mul_le hb).mpr h
  rw [roundDiv]
  split <;> omega

/-! ### Quotients -/

section Quotient

variable {n d : ℕ} {q : ℚ} {e : ℤ} {r : ℕ}

/-- What both parts of a scaled quotient have in common. -/
def quotientUnit (d : ℕ) (e : ℤ) : ℚ :=
  d * 2 ^ (-e).toNat

theorem cast_numerator (hq : (n : ℚ) = q * d) (e : ℤ) :
    ((n * twoPow (-e).toNat : ℕ) : ℚ) = q * quotientUnit d e := by
  rw [Nat.cast_mul, cast_twoPow, hq, quotientUnit, mul_assoc]

theorem cast_denominator (d : ℕ) (e : ℤ) :
    ((d * twoPow e.toNat : ℕ) : ℚ) = 2 ^ e * quotientUnit d e := by
  have htwo := zpow_mul_toNat (b := 2) (by norm_num) e
  rw [Nat.cast_mul, cast_twoPow, quotientUnit, ← htwo]
  ring

variable (hd : 0 < d) (hq : (n : ℚ) = q * d)

include hd

theorem quotientUnit_pos (e : ℤ) : 0 < quotientUnit d e := by
  unfold quotientUnit
  positivity

include hq

/-- Comparing a quotient with a multiple of a power of two. -/
theorem mul_le_numerator_iff : r * (d * twoPow e.toNat) ≤ n * twoPow (-e).toNat ↔
    (r : ℚ) * 2 ^ e ≤ q := by
  rw [← Nat.cast_le (α := ℚ), Nat.cast_mul, cast_denominator, cast_numerator hq, ← mul_assoc]
  exact mul_le_mul_iff_left₀ (quotientUnit_pos hd e)

theorem numerator_lt_mul_iff : n * twoPow (-e).toNat < r * (d * twoPow e.toNat) ↔
    q < (r : ℚ) * 2 ^ e := by
  rw [← not_le, mul_le_numerator_iff hd hq, not_le]

/-- A quotient is rounded to the whole number that it is near to, in units of a power of two. -/
theorem roundScaled_eq (hlower : (2 * r - 1 : ℚ) * 2 ^ e ≤ 2 * q)
    (hupper : 2 * q ≤ (2 * r + 1 : ℚ) * 2 ^ e)
    (htie : r % 2 = 1 → (2 * r - 1 : ℚ) * 2 ^ e < 2 * q ∧ 2 * q < (2 * r + 1 : ℚ) * 2 ^ e) :
    roundScaled n d e = r := by
  have hunit := quotientUnit_pos hd e
  have hnumerator := cast_numerator hq e
  have hdenominator := cast_denominator d e
  have hpos : 0 < d * twoPow e.toNat := Nat.mul_pos hd (Nat.pow_pos (by decide))
  rw [roundScaled]
  generalize n * twoPow (-e).toNat = a at hnumerator ⊢
  generalize d * twoPow e.toNat = b at hdenominator hpos ⊢
  have hlower' := mul_le_mul_of_nonneg_right hlower hunit.le
  have hupper' := mul_le_mul_of_nonneg_right hupper hunit.le
  have hbelow : (2 * (r * b) : ℚ) ≤ 2 * a + b := by
    rw [hnumerator, hdenominator]
    linarith
  have habove : (2 * a : ℚ) ≤ 2 * (r * b) + b := by
    rw [hnumerator, hdenominator]
    linarith
  refine roundDiv_eq hpos (by exact_mod_cast hbelow) (by exact_mod_cast habove) fun htie' => ?_
  by_contra hodd
  obtain ⟨hlt, hgt⟩ := htie (by omega)
  have hlt' := mul_lt_mul_of_pos_right hlt hunit
  have hgt' := mul_lt_mul_of_pos_right hgt hunit
  rcases htie' with heq | heq
  · have hcast : (2 * (r * b) : ℚ) = 2 * a + b := by exact_mod_cast heq
    rw [hnumerator, hdenominator] at hcast
    linarith
  · have hcast : (2 * a : ℚ) = 2 * (r * b) + b := by exact_mod_cast heq
    rw [hnumerator, hdenominator] at hcast
    linarith

theorem roundScaled_le (h : q < (r : ℚ) * 2 ^ e) : roundScaled n d e ≤ r :=
  roundDiv_le ((numerator_lt_mul_iff hd hq).mpr h)

theorem le_roundScaled (h : (r : ℚ) * 2 ^ e ≤ q) : r ≤ roundScaled n d e := by
  refine le_roundDiv ?_ ((mul_le_numerator_iff hd hq).mpr h)
  exact Nat.mul_pos hd (Nat.pow_pos (by decide))

/-- **The exponent of a quotient** is the one at which its significand has 53 bits, or the smallest
exponent if that is larger. -/
theorem exists_exponentOf (hn : 0 < n) : ∃ j : ℤ, exponentOf n d = max j Binary64.minExponent ∧
    2 ^ 52 * (2 : ℚ) ^ j ≤ q ∧ q < 2 ^ 53 * (2 : ℚ) ^ j := by
  have hd' : (0 : ℚ) < d := by exact_mod_cast hd
  have hnlower : (2 : ℚ) ^ n.log2 ≤ q * d := by
    rw [← hq]
    exact_mod_cast Nat.log2_self_le hn.ne'
  have hnupper : q * d < (2 : ℚ) ^ (n.log2 + 1) := by
    rw [← hq]
    exact_mod_cast Nat.lt_log2_self
  have hdlower : (2 : ℚ) ^ d.log2 ≤ d := by exact_mod_cast Nat.log2_self_le hd.ne'
  have hdupper : (d : ℚ) < 2 ^ (d.log2 + 1) := by exact_mod_cast Nat.lt_log2_self
  have hqpos : 0 < q := by
    have hn' : (0 : ℚ) < n := by exact_mod_cast hn
    rw [hq] at hn'
    exact (pos_iff_pos_of_mul_pos hn').mpr hd'
  -- the first guess is the exponent that is wanted, or one more
  set i : ℤ := (n.log2 : ℤ) - d.log2 - 52 with hi
  have hpower : (2 : ℚ) ^ n.log2 = 2 ^ 52 * 2 ^ i * 2 ^ d.log2 := by
    rw [← zpow_natCast, ← zpow_natCast, ← zpow_natCast, ← zpow_add₀ (by norm_num),
      ← zpow_add₀ (by norm_num), hi]
    congr 1
    push_cast
    ring
  have hlower : 2 ^ 51 * (2 : ℚ) ^ i ≤ q := by
    have hlt : 2 ^ 52 * (2 : ℚ) ^ i * 2 ^ d.log2 ≤ q * (2 * 2 ^ d.log2) := by
      rw [← hpower]
      refine hnlower.trans (mul_le_mul_of_nonneg_left ?_ hqpos.le)
      rw [← pow_succ']
      exact hdupper.le
    have hpos : (0 : ℚ) < 2 ^ d.log2 := by positivity
    have hle := le_of_mul_le_mul_right (by linarith : 2 ^ 52 * (2 : ℚ) ^ i * 2 ^ d.log2 ≤
      q * 2 * 2 ^ d.log2) hpos
    linarith
  have hupper : q < 2 ^ 53 * (2 : ℚ) ^ i := by
    have hlt : q * 2 ^ d.log2 < 2 ^ 53 * (2 : ℚ) ^ i * 2 ^ d.log2 := by
      calc q * 2 ^ d.log2 ≤ q * d := mul_le_mul_of_nonneg_left hdlower hqpos.le
        _ < 2 ^ (n.log2 + 1) := hnupper
        _ = 2 ^ 53 * (2 : ℚ) ^ i * 2 ^ d.log2 := by
          rw [pow_succ, hpower]
          ring
    exact lt_of_mul_lt_mul_right hlt (by positivity)
  have hcompare : n * twoPow (-i).toNat < twoPow 52 * (d * twoPow i.toNat) ↔
      q < 2 ^ 52 * (2 : ℚ) ^ i := by
    rw [numerator_lt_mul_iff hd hq, cast_twoPow]
  rw [exponentOf]
  by_cases hsmall : n * twoPow (-i).toNat < twoPow 52 * (d * twoPow i.toNat)
  · refine ⟨i - 1, by rw [if_pos hsmall], ?_⟩
    have hhalf : (2 : ℚ) ^ i = 2 * 2 ^ (i - 1) := by
      rw [← zpow_one_add₀ (by norm_num)]
      congr 1
      ring
    have hlt := hcompare.mp hsmall
    rw [hhalf] at hlower hlt
    constructor <;> linarith
  · refine ⟨i, by rw [if_neg hsmall], ?_, hupper⟩
    exact not_lt.mp fun hlt => hsmall (hcompare.mpr hlt)

end Quotient

theorem exponent_le {q : ℚ} {j k : ℤ} (hlower : 2 ^ 52 * (2 : ℚ) ^ j ≤ q)
    (hupper : q < 2 ^ 53 * (2 : ℚ) ^ k) : j ≤ k := by
  have hlt : (2 : ℚ) ^ j < 2 ^ (k + 1) := by
    rw [zpow_add_one₀ (by norm_num)]
    linarith
  have := two_zpow_lt_iff.mp hlt
  omega

/-! ### Binary64 numbers -/

/-- A binary64 number is **well-formed** if its significand and exponent are in range, and the
significand has all its bits unless the exponent is the smallest. -/
structure Binary64.WellFormed (x : Binary64) : Prop where
  significand_lt : x.significand < 2 ^ 53
  le_exponent : Binary64.minExponent ≤ x.exponent
  exponent_le : x.exponent ≤ Binary64.maxExponent
  normal : x.exponent = Binary64.minExponent ∨ 2 ^ 52 ≤ x.significand

/-- A number **attracts** the quotients that lie between its bounds, and the bounds themselves if
its significand is even. -/
structure Binary64.Attracts (x : Binary64) (q : ℚ) : Prop where
  lower : (bounds x).1 * (2 : ℚ) ^ x.exponent ≤ 4 * q
  upper : 4 * q ≤ (bounds x).2 * (2 : ℚ) ^ x.exponent
  inside : x.significand % 2 = 1 → (bounds x).1 * (2 : ℚ) ^ x.exponent < 4 * q ∧
    4 * q < (bounds x).2 * (2 : ℚ) ^ x.exponent

theorem bounds_eq (x : Binary64) (h : x.significand ≠ 2 ^ 52 ∨ x.exponent ≤ Binary64.minExponent) :
    bounds x = (4 * x.significand - 2, 4 * x.significand + 2) := by
  have hnot : ¬ (x.significand = twoPow 52 ∧ Binary64.minExponent < x.exponent) := by
    rintro ⟨hsignificand, hexponent⟩
    rcases h with h | h
    · exact h hsignificand
    · omega
  rw [bounds, if_neg hnot]

theorem bounds_power {x : Binary64} (hsignificand : x.significand = 2 ^ 52)
    (hexponent : Binary64.minExponent < x.exponent) :
    bounds x = (4 * x.significand - 1, 4 * x.significand + 2) := by
  rw [bounds, if_pos ⟨hsignificand, hexponent⟩]

section Nearest

variable {n d : ℕ} {q : ℚ} {negative : Bool} {x : Binary64}

/-- What quotients are rounded to is **well-formed**. -/
theorem nearest_wellFormed (hn : 0 < n) (hd : 0 < d) (h : nearest negative n d = some x) :
    x.WellFormed := by
  have hq : (n : ℚ) = (n / d : ℚ) * d := by
    have hd' : (d : ℚ) ≠ 0 := by exact_mod_cast hd.ne'
    field_simp
  obtain ⟨j, hexponent, hlower, hupper⟩ := exists_exponentOf hd hq hn
  have hle : j ≤ exponentOf n d := hexponent ▸ le_max_left _ _
  have hmin : Binary64.minExponent ≤ exponentOf n d := hexponent ▸ le_max_right _ _
  have hrounded : roundScaled n d (exponentOf n d) ≤ 2 ^ 53 := by
    refine roundScaled_le hd hq (hupper.trans_le ?_)
    push_cast
    exact mul_le_mul_of_nonneg_left (two_zpow_le_iff.mpr hle) (by norm_num)
  have hnormal : exponentOf n d = Binary64.minExponent ∨
      2 ^ 52 ≤ roundScaled n d (exponentOf n d) := by
    rcases le_total j Binary64.minExponent with hj | hj
    · exact .inl (hexponent.trans (max_eq_right hj))
    · rw [max_eq_left hj] at hexponent
      refine .inr (le_roundScaled hd hq ?_)
      rw [hexponent]
      push_cast
      exact hlower
  rw [nearest] at h
  generalize exponentOf n d = e at h hmin hrounded hnormal
  generalize roundScaled n d e = m at h hrounded hnormal
  dsimp only at h
  by_cases hm : m = twoPow 53
  · rw [if_pos hm] at h
    dsimp only at h
    split at h
    · cases h
    · next hmax =>
      obtain rfl := Option.some.inj h
      have hlt : twoPow 52 < 2 ^ 53 := by decide
      exact ⟨hlt, hmin.trans (by omega : e ≤ e + 1), not_lt.mp hmax, .inr le_rfl⟩
  · rw [if_neg hm] at h
    dsimp only at h
    split at h
    · cases h
    · next hmax =>
      obtain rfl := Option.some.inj h
      exact ⟨lt_of_le_of_ne hrounded hm, hmin, not_lt.mp hmax, hnormal⟩

theorem nearest_of_exponent (hx : x.WellFormed) (hexponent : exponentOf n d = x.exponent)
    (hrounded : roundScaled n d x.exponent = x.significand) :
    nearest x.negative n d = some x := by
  have hm : x.significand ≠ twoPow 53 := hx.significand_lt.ne
  rw [nearest, hexponent, hrounded]
  dsimp only
  rw [if_neg hm]
  exact if_neg (not_lt.mpr hx.exponent_le)

section Attracts

variable (hx : x.WellFormed) (hpos : 0 < x.significand) (hn : 0 < n) (hd : 0 < d)
  (hq : (n : ℚ) = q * d) (h : x.Attracts q)

include hx hpos hn hd hq h

/-- Where the numbers lie equally close on both sides. -/
theorem nearest_of_regular
    (hregular : x.significand ≠ 2 ^ 52 ∨ x.exponent ≤ Binary64.minExponent) :
    nearest x.negative n d = some x := by
  obtain ⟨j, hexponent, hlower, hupper⟩ := exists_exponentOf hd hq hn
  have hunit : (0 : ℚ) < 2 ^ x.exponent := zpow_pos (by norm_num) _
  have hcast : ((4 * x.significand - 2 : ℕ) : ℚ) = 4 * x.significand - 2 := by
    push_cast [Nat.cast_sub (by omega : 2 ≤ 4 * x.significand)]
    ring
  obtain ⟨habove, hbelow, hinside⟩ := h
  rw [bounds_eq x hregular] at habove hbelow hinside
  simp only [hcast] at habove hinside
  push_cast at hbelow hinside
  have hmost : (x.significand : ℚ) ≤ 2 ^ 53 - 1 := by
    have hle : x.significand + 1 ≤ 2 ^ 53 := hx.significand_lt
    have hle' : (x.significand + 1 : ℚ) ≤ 2 ^ 53 := by exact_mod_cast hle
    linarith
  have hexponent' : exponentOf n d = x.exponent := by
    rw [hexponent]
    refine le_antisymm (max_le (exponent_le hlower ?_) hx.le_exponent) ?_
    · nlinarith
    · rcases hregular with hne | hle
      · rcases hx.normal with hmin | hnormal
        · exact hmin.le.trans (le_max_right _ _)
        · have hleast : (2 ^ 52 + 1 : ℚ) ≤ x.significand := by
            have hle : 2 ^ 52 + 1 ≤ x.significand := lt_of_le_of_ne hnormal hne.symm
            exact_mod_cast hle
          refine (exponent_le ?_ hupper).trans (le_max_left _ _)
          nlinarith
      · exact hle.trans (le_max_right _ _)
  refine nearest_of_exponent hx hexponent' (roundScaled_eq hd hq ?_ ?_ fun hodd => ?_)
  · linarith
  · linarith
  · obtain ⟨hstrict, hstrict'⟩ := hinside hodd
    constructor <;> linarith

omit hpos in
/-- At a power of two the numbers lie twice as close below as above. -/
theorem nearest_of_power (hsignificand : x.significand = 2 ^ 52)
    (hnext : Binary64.minExponent < x.exponent) : nearest x.negative n d = some x := by
  obtain ⟨j, hexponent, hlower, hupper⟩ := exists_exponentOf hd hq hn
  have hunit : (0 : ℚ) < 2 ^ x.exponent := zpow_pos (by norm_num) _
  obtain ⟨habove, hbelow, -⟩ := h
  rw [bounds_power hsignificand hnext, hsignificand] at habove hbelow
  norm_num at habove hbelow
  by_cases hside : 2 ^ 52 * (2 : ℚ) ^ x.exponent ≤ q
  · -- above the power of two
    have hexponent' : exponentOf n d = x.exponent := by
      rw [hexponent]
      refine le_antisymm (max_le (exponent_le hlower ?_) hx.le_exponent) ?_
      · linarith
      · exact (exponent_le hside hupper).trans (le_max_left _ _)
    refine nearest_of_exponent hx hexponent' (roundScaled_eq hd hq ?_ ?_ fun hodd => ?_)
    · rw [hsignificand]
      push_cast
      linarith
    · rw [hsignificand]
      push_cast
      linarith
    · rw [hsignificand] at hodd
      exact absurd hodd (by decide)
  · -- below it, where the exponent is one less
    have hhalf : (2 : ℚ) ^ x.exponent = 2 * 2 ^ (x.exponent - 1) := by
      rw [← zpow_one_add₀ (by norm_num)]
      congr 1
      ring
    have hside := not_le.mp hside
    rw [hhalf] at hside habove hbelow
    have hunit' : (0 : ℚ) < 2 ^ (x.exponent - 1) := zpow_pos (by norm_num) _
    have hexponent' : exponentOf n d = x.exponent - 1 := by
      rw [hexponent]
      refine le_antisymm (max_le (exponent_le hlower ?_) (by omega)) ?_
      · linarith
      · refine (exponent_le ?_ hupper).trans (le_max_left _ _)
        linarith
    have hrounded : roundScaled n d (x.exponent - 1) = 2 ^ 53 := by
      refine roundScaled_eq hd hq ?_ ?_ fun hodd => ?_
      · push_cast
        linarith
      · push_cast
        linarith
      · exact absurd hodd (by decide)
    have hcarry : twoPow 53 = 2 ^ 53 := rfl
    rw [nearest, hexponent', hrounded]
    dsimp only
    rw [if_pos hcarry.symm]
    dsimp only
    rw [Int.sub_add_cancel, if_neg (not_lt.mpr hx.exponent_le), show twoPow 52 = 2 ^ 52 from rfl,
      ← hsignificand]

/-- A quotient is **rounded to the number that attracts it**. -/
theorem nearest_of_attracts : nearest x.negative n d = some x := by
  by_cases hregular : x.significand ≠ 2 ^ 52 ∨ x.exponent ≤ Binary64.minExponent
  · exact nearest_of_regular hx hpos hn hd hq h hregular
  · rw [not_or, not_not, not_le] at hregular
    exact nearest_of_power hx hn hd hq h hregular.1 hregular.2

end Attracts

end Nearest

end Arborist.Decimal
