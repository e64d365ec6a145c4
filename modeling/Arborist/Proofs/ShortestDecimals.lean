import Arborist.Proofs.Rounding

/-!
# Shortest decimals are read back

The decimal that is found for a binary64 number lies among the quotients that the number attracts
(`shortest_attracts`), so it is rounded to the number again.

* `attracts_of_onGrid?`: what is found on a grid is attracted.
* `exists_onGrid?`: a grid has something to find if its lines lie close enough. Those of a grid with
  seventeen digits do, because the first digit is in its place (`pow_decimalExponent_le`).
-/

namespace Arborist.Decimal

/-! ### Grids -/

section Grid

variable {x : Binary64} {k : ℤ} {n a : ℕ} {tie : Tie}

/-- The distance between the lines of a grid. -/
def spacing (x : Binary64) (k : ℤ) : ℕ :=
  (scale k (x.exponent - 2)).1

/-- A quarter of the distance between a number and the next one, in the unit of `spacing`. -/
def quarter (x : Binary64) (k : ℤ) : ℕ :=
  (scale k (x.exponent - 2)).2

/-- The grid line below a number. -/
def lineBelow (x : Binary64) (k : ℤ) : ℕ :=
  4 * x.significand * quarter x k / spacing x k

/-- A grid line is not too small for a number. -/
def ReachesLower (x : Binary64) (k : ℤ) (n : ℕ) : Prop :=
  (bounds x).1 * quarter x k < n * spacing x k ∨
    x.significand % 2 = 0 ∧ (bounds x).1 * quarter x k = n * spacing x k

/-- A grid line is not too large for a number. -/
def StaysUpper (x : Binary64) (k : ℤ) (n : ℕ) : Prop :=
  n * spacing x k < (bounds x).2 * quarter x k ∨
    x.significand % 2 = 0 ∧ n * spacing x k = (bounds x).2 * quarter x k

theorem spacing_pos (x : Binary64) (k : ℤ) : 0 < spacing x k :=
  Nat.mul_pos (Nat.pow_pos (by decide)) (Nat.pow_pos (by decide))

theorem quarter_pos (x : Binary64) (k : ℤ) : 0 < quarter x k :=
  Nat.mul_pos (Nat.pow_pos (by decide)) (Nat.pow_pos (by decide))

/-- What both sides have in common where a grid is compared with the bounds of a number. -/
def gridUnit (x : Binary64) (k : ℤ) : ℚ :=
  scaleUnit k (x.exponent - 2) / 4

theorem gridUnit_pos (x : Binary64) (k : ℤ) : 0 < gridUnit x k :=
  div_pos (scaleUnit_pos _ _) (by norm_num)

theorem cast_mul_spacing (x : Binary64) (k : ℤ) (n : ℕ) :
    ((n * spacing x k : ℕ) : ℚ) = 4 * (n * 10 ^ k) * gridUnit x k := by
  rw [Nat.cast_mul, spacing, scale_fst, gridUnit]
  ring

theorem cast_mul_quarter (x : Binary64) (k : ℤ) (a : ℕ) :
    ((a * quarter x k : ℕ) : ℚ) = a * 2 ^ x.exponent * gridUnit x k := by
  have hquarter : (2 : ℚ) ^ x.exponent = 4 * 2 ^ (x.exponent - 2) := by
    rw [zpow_sub₀ (by norm_num)]
    norm_num
    ring
  rw [Nat.cast_mul, quarter, scale_snd, gridUnit, hquarter]
  ring

theorem quarters_le_spacings_iff : a * quarter x k ≤ n * spacing x k ↔
    (a : ℚ) * 2 ^ x.exponent ≤ 4 * (n * 10 ^ k) := by
  rw [← Nat.cast_le (α := ℚ), cast_mul_quarter, cast_mul_spacing]
  exact mul_le_mul_iff_left₀ (gridUnit_pos x k)

theorem spacings_le_quarters_iff : n * spacing x k ≤ a * quarter x k ↔
    (4 * (n * 10 ^ k) : ℚ) ≤ a * 2 ^ x.exponent := by
  rw [← Nat.cast_le (α := ℚ), cast_mul_quarter, cast_mul_spacing]
  exact mul_le_mul_iff_left₀ (gridUnit_pos x k)

/-- A grid line between the bounds is attracted. -/
theorem attracts_of_between (hlower : ReachesLower x k n) (hupper : StaysUpper x k n) :
    x.Attracts (n * 10 ^ k) := by
  refine ⟨quarters_le_spacings_iff.mp ?_, spacings_le_quarters_iff.mp ?_, fun hodd => ⟨?_, ?_⟩⟩
  · rcases hlower with hlt | ⟨-, heq⟩
    · exact hlt.le
    · exact heq.le
  · rcases hupper with hlt | ⟨-, heq⟩
    · exact hlt.le
    · exact heq.le
  · rcases hlower with hlt | ⟨heven, -⟩
    · exact not_le.mp fun hle => absurd (spacings_le_quarters_iff.mpr hle) (not_le.mpr hlt)
    · omega
  · rcases hupper with hlt | ⟨heven, -⟩
    · exact not_le.mp fun hle => absurd (quarters_le_spacings_iff.mpr hle) (not_le.mpr hlt)
    · omega

/-- What is found on a grid is one of the two lines next to the number. -/
theorem onGrid?_cases (h : onGrid? tie x k = some n) :
    n = lineBelow x k ∧ ReachesLower x k n ∨ n = lineBelow x k + 1 ∧ StaysUpper x k n := by
  rw [onGrid?] at h
  cases tie <;> dsimp only at h <;> split_ifs at h <;> obtain rfl := Option.some.inj h
  -- each branch has been asked whether the line fits
  all_goals first | exact .inl ⟨rfl, ‹_›⟩ | exact .inr ⟨rfl, ‹_›⟩

/-- One of the two lines is found if it lies between the bounds. -/
theorem exists_onGrid? (tie : Tie)
    (h : ReachesLower x k (lineBelow x k) ∨ StaysUpper x k (lineBelow x k + 1)) :
    ∃ n, onGrid? tie x k = some n := by
  rw [onGrid?]
  cases tie <;> dsimp only <;> split_ifs
  all_goals first | exact ⟨_, rfl⟩ | exact absurd h (not_or.mpr ⟨‹_›, ‹_›⟩)

theorem bounds_lt (hpos : 0 < x.significand) :
    (bounds x).1 < 4 * x.significand ∧ 4 * x.significand < (bounds x).2 := by
  rw [bounds]
  constructor
  · dsimp only
    split_ifs <;> omega
  · exact Nat.lt_add_of_pos_right (by decide)

theorem lineBelow_mul_le (x : Binary64) (k : ℤ) :
    lineBelow x k * spacing x k ≤ 4 * x.significand * quarter x k :=
  Nat.div_mul_le_self _ _

theorem lt_succ_lineBelow_mul (x : Binary64) (k : ℤ) :
    4 * x.significand * quarter x k < (lineBelow x k + 1) * spacing x k :=
  Nat.lt_mul_of_div_lt (Nat.lt_succ_self _) (spacing_pos x k)

/-- **What is found on a grid** is attracted. -/
theorem attracts_of_onGrid? (hpos : 0 < x.significand) (h : onGrid? tie x k = some n) :
    x.Attracts (n * 10 ^ k) := by
  obtain ⟨hlower, hupper⟩ := bounds_lt hpos
  obtain ⟨rfl, hreaches⟩ | ⟨rfl, hstays⟩ := onGrid?_cases h
  · refine attracts_of_between hreaches (.inl ?_)
    exact (lineBelow_mul_le x k).trans_lt (Nat.mul_lt_mul_of_pos_right hupper (quarter_pos x k))
  · refine attracts_of_between (.inl ?_) hstays
    exact (Nat.mul_lt_mul_of_pos_right hlower (quarter_pos x k)).trans (lt_succ_lineBelow_mul x k)

/-- A grid **has something to find** if its lines lie closer than the bounds of the number. -/
theorem exists_onGrid?_of_close (tie : Tie)
    (h : spacing x k < ((bounds x).2 - (bounds x).1) * quarter x k) :
    ∃ n, onGrid? tie x k = some n := by
  refine exists_onGrid? tie (or_iff_not_and_not.mpr fun ⟨hlower, hupper⟩ => ?_)
  have hbelow : lineBelow x k * spacing x k ≤ (bounds x).1 * quarter x k :=
    not_lt.mp fun hlt => hlower (.inl hlt)
  have habove : (bounds x).2 * quarter x k ≤ (lineBelow x k + 1) * spacing x k :=
    not_lt.mp fun hlt => hupper (.inl hlt)
  rw [Nat.succ_mul] at habove
  rw [Nat.sub_mul] at h
  omega

theorem three_le_bounds (hpos : 0 < x.significand) : 3 ≤ (bounds x).2 - (bounds x).1 := by
  rw [bounds]
  dsimp only
  split_ifs <;> omega

theorem four_le_bounds (hpos : 0 < x.significand) (hne : x.significand ≠ 2 ^ 52) :
    4 ≤ (bounds x).2 - (bounds x).1 := by
  rw [bounds_eq x (.inl hne)]
  dsimp only
  omega

/-- A grid on which a number has **seventeen digits** has something to find. -/
theorem exists_onGrid?_of_seventeen (hx : x.WellFormed) (hpos : 0 < x.significand) (tie : Tie)
    (h : (10 : ℚ) ^ (k + 16) ≤ x.significand * 2 ^ x.exponent) :
    ∃ n, onGrid? tie x k = some n := by
  have hunit : (0 : ℚ) < 2 ^ x.exponent := zpow_pos (by norm_num) _
  have hpower : (10 : ℚ) ^ (k + 16) = 10 ^ k * 10 ^ 16 := by
    rw [zpow_add₀ (by norm_num)]
    rfl
  rw [hpower] at h
  refine exists_onGrid?_of_close tie (not_le.mp fun hle => ?_)
  rw [← Nat.one_mul (spacing x k), quarters_le_spacings_iff, Nat.cast_one, one_mul] at hle
  by_cases hsignificand : x.significand = 2 ^ 52
  · have hwidth : (3 : ℚ) ≤ ((bounds x).2 - (bounds x).1 : ℕ) := by
      exact_mod_cast three_le_bounds hpos
    have hwide := mul_le_mul_of_nonneg_right hwidth hunit.le
    rw [hsignificand] at h
    push_cast at h
    linarith
  · have hwidth : (4 : ℚ) ≤ ((bounds x).2 - (bounds x).1 : ℕ) := by
      exact_mod_cast four_le_bounds hpos hsignificand
    have hmost : (x.significand : ℚ) ≤ 2 ^ 53 := by
      exact_mod_cast hx.significand_lt.le
    have hwide := mul_le_mul_of_nonneg_right hwidth hunit.le
    have hlow := mul_le_mul_of_nonneg_right hmost hunit.le
    linarith

end Grid

/-! ### The first digit -/

/-- Comparing a power of ten with a power of two, by a power of both that is easy to compare. -/
theorem ten_zpow_le_two_zpow {g b : ℤ} {i j : ℕ} (hi : 0 < i) (hle : i * g ≤ j * b)
    (h : ((10 : ℚ) ^ j) ^ b ≤ (2 ^ i) ^ b) : (10 : ℚ) ^ g ≤ 2 ^ b := by
  refine le_of_pow_le_pow_left₀ hi.ne' (by positivity) ?_
  calc ((10 : ℚ) ^ g) ^ i = 10 ^ (i * g) := by rw [← zpow_natCast, ← zpow_mul, mul_comm]
    _ ≤ 10 ^ (j * b) := zpow_le_zpow_right₀ (by norm_num) hle
    _ = (10 ^ j) ^ b := by rw [zpow_mul, zpow_natCast]
    _ ≤ (2 ^ i) ^ b := h
    _ = (2 ^ b) ^ i := by rw [← zpow_natCast, ← zpow_natCast, ← zpow_mul, ← zpow_mul, mul_comm]

/-- The first guess at a decimal exponent is too large by one at most. -/
theorem ten_zpow_guess_le {b : ℤ} (hleast : -1074 ≤ b) (hmost : b ≤ 1023) :
    (10 : ℚ) ^ ((b * 30103).fdiv 100000 - 1) ≤ 2 ^ b := by
  rw [Int.fdiv_eq_ediv_of_nonneg _ (by decide)]
  -- the decimal logarithm of two lies between 59 / 196 and 28 / 93
  rcases le_or_gt 0 b with hb | hb
  · refine ten_zpow_le_two_zpow (by decide : 0 < 196) (j := 59) (by push_cast; omega) ?_
    exact zpow_le_zpow_left₀ hb (by positivity) (by norm_num)
  · refine ten_zpow_le_two_zpow (by decide : 0 < 93) (j := 28) (by push_cast; omega) ?_
    have hinverse : ((2 : ℚ) ^ 93) ^ (-b) ≤ (10 ^ 28) ^ (-b) :=
      zpow_le_zpow_left₀ (by omega) (by positivity) (by norm_num)
    have hle := inv_anti₀ (by positivity) hinverse
    rwa [← zpow_neg, ← zpow_neg, neg_neg] at hle

theorem scale_lt_iff {m : ℕ} {k e : ℤ} : m * (scale k e).2 < (scale k e).1 ↔
    (m * 2 ^ e : ℚ) < 10 ^ k := by
  rw [← Nat.cast_lt (α := ℚ), Nat.cast_mul, scale_fst, scale_snd, ← mul_assoc]
  exact mul_lt_mul_iff_left₀ (scaleUnit_pos k e)

/-- The decimal exponent of a number is **not too large**. -/
theorem pow_decimalExponent_le {x : Binary64} (hx : x.WellFormed) (hpos : 0 < x.significand) :
    (10 : ℚ) ^ decimalExponent x.significand x.exponent ≤ x.significand * 2 ^ x.exponent := by
  have hlog : x.significand.log2 < 53 := (Nat.log2_lt hpos.ne').mpr hx.significand_lt
  have hleast := hx.le_exponent
  have hmost := hx.exponent_le
  rw [Binary64.minExponent] at hleast
  rw [Binary64.maxExponent] at hmost
  have hguess := ten_zpow_guess_le (b := x.significand.log2 + x.exponent) (by omega) (by omega)
  rw [decimalExponent]
  simp only [scale_lt_iff, decide_eq_true_eq]
  split_ifs with hexceeds hexceeds'
  · calc (10 : ℚ) ^ _ ≤ 2 ^ ((x.significand.log2 : ℤ) + x.exponent) := hguess
      _ = 2 ^ x.significand.log2 * 2 ^ x.exponent := by
        rw [zpow_add₀ (by norm_num), zpow_natCast]
      _ ≤ x.significand * 2 ^ x.exponent := by
        refine mul_le_mul_of_nonneg_right ?_ (by positivity)
        exact_mod_cast Nat.log2_self_le hpos.ne'
  · exact not_lt.mp hexceeds
  · exact not_lt.mp hexceeds'

/-! ### The first hit -/

/-- What a decimal stands for. -/
def Scientific.value (d : Scientific) : ℚ :=
  d.digits * 10 ^ d.exponent

theorem Scientific.trim_value (limit : ℕ) (d : Scientific) : (d.trim limit).value = d.value := by
  fun_induction Scientific.trim limit d with
  | case1 => rfl
  | case2 limit d h ih =>
    rw [ih, value, value]
    have hdigits : d.digits = 10 * (d.digits / 10) := by omega
    have hcast : (d.digits : ℚ) = 10 * (d.digits / 10 : ℕ) := by exact_mod_cast hdigits
    rw [hcast, zpow_add_one₀ (by norm_num)]
    ring
  | case3 => rfl

section FirstHit

variable {tie : Tie} {x : Binary64} {top : ℤ} {limit digits : ℕ}

/-- The first hit is a hit. -/
theorem attracts_of_firstHit? (hpos : 0 < x.significand) {d : Scientific}
    (h : firstHit? tie x top limit digits = some d) : x.Attracts d.value := by
  induction limit generalizing digits with
  | zero => cases h
  | succ limit ih =>
    rw [firstHit?] at h
    cases hgrid : onGrid? tie x (top + 1 - digits) with
    | some n =>
      rw [hgrid] at h
      obtain rfl := Option.some.inj h
      exact attracts_of_onGrid? hpos hgrid
    | none =>
      rw [hgrid] at h
      exact ih h

/-- There is a first hit if one of the grids that are tried has something to find. -/
theorem exists_firstHit? {tried : ℕ} (hle : digits ≤ tried) (hlt : tried < digits + limit) {n : ℕ}
    (hgrid : onGrid? tie x (top + 1 - tried) = some n) :
    ∃ d, firstHit? tie x top limit digits = some d := by
  induction limit generalizing digits with
  | zero => omega
  | succ limit ih =>
    rw [firstHit?]
    cases hfirst : onGrid? tie x (top + 1 - digits) with
    | some n => exact ⟨_, rfl⟩
    | none =>
      have hne : digits ≠ tried := by
        rintro rfl
        cases hfirst.symm.trans hgrid
      exact ih (by omega) (by omega)

/-- The **shortest decimal** of a number is attracted by it. -/
theorem shortest_attracts (hx : x.WellFormed) (hpos : 0 < x.significand) (tie : Tie) :
    x.Attracts (shortest tie x).value := by
  have hfirst : (10 : ℚ) ^ (decimalExponent x.significand x.exponent + 1 - (17 : ℕ) + 16) ≤
      x.significand * 2 ^ x.exponent := by
    have hexponent := pow_decimalExponent_le hx hpos
    rwa [show decimalExponent x.significand x.exponent + 1 - (17 : ℕ) + 16 =
      decimalExponent x.significand x.exponent by omega]
  obtain ⟨n, hgrid⟩ := exists_onGrid?_of_seventeen hx hpos tie hfirst
  obtain ⟨d, hd⟩ : ∃ d, firstHit? tie x (decimalExponent x.significand x.exponent) 17 1 = some d :=
    exists_firstHit? (by decide) (by decide) hgrid
  rw [shortest, hd, Scientific.trim_value]
  exact attracts_of_firstHit? hpos hd

end FirstHit

end Arborist.Decimal
