import Arborist.Proofs.RoundTrip
import Arborist.Proofs.ShortestDecimals

/-!
# Numbers are read from their texts

A binary64 number is **read back from its text**, however the text is laid out (`numeral?_print`).
The numbers of which that is said, the well-formed ones, are just those that can be read from any
text (`wellFormed_iff_exists_numeral?`).

The shortest decimal is attracted by the number, and a whole number times a power of ten that is
attracted is read as the number (`ofScientific_of_attracts`). So it is enough that a layout writes
the value of the decimal (`writes_layout`): with digits, perhaps a point among them, and perhaps an
exponent.
-/

namespace Arborist.Decimal

/-! ### Magnitudes -/

theorem lt_pow_digitCount (n : ℕ) : n < 10 ^ digitCount n :=
  (Nat.length_toDigits_le_iff (by decide) Nat.length_toDigits_pos).mp le_rfl

theorem pow_digitCount_le {n : ℕ} (hn : 0 < n) : 10 ^ (digitCount n - 1) ≤ n := by
  rcases Nat.eq_zero_or_pos (digitCount n - 1) with hone | hmore
  · rw [hone]
    exact hn
  · refine not_lt.mp fun hlt => ?_
    have hle : digitCount n ≤ digitCount n - 1 :=
      (Nat.length_toDigits_le_iff (by decide) hmore).mpr hlt
    omega

section Magnitude

variable {x : Binary64} {q : ℚ} {n : ℕ} {e : ℤ}

theorem two_le_bounds (hpos : 0 < x.significand) : 2 ≤ (bounds x).1 := by
  rw [bounds]
  dsimp only
  split_ifs <;> omega

theorem Binary64.Attracts.lt_ten_zpow (hx : x.WellFormed) (h : x.Attracts q) :
    q < 10 ^ (309 : ℤ) := by
  have hsignificand : ((bounds x).2 : ℚ) ≤ 2 ^ 55 := by
    have hlt := hx.significand_lt
    have hle : 4 * x.significand + 2 ≤ 2 ^ 55 := by omega
    exact_mod_cast hle
  have hexponent : (2 : ℚ) ^ x.exponent ≤ 2 ^ (971 : ℤ) := two_zpow_le_iff.mpr hx.exponent_le
  have hle : 4 * q ≤ 2 ^ 55 * 2 ^ (971 : ℤ) :=
    h.upper.trans (mul_le_mul hsignificand hexponent (by positivity) (by positivity))
  have hpower : (2 : ℚ) ^ 55 * 2 ^ (971 : ℤ) = 4 * 2 ^ (1024 : ℤ) := by
    rw [show (4 : ℚ) = 2 ^ (2 : ℤ) by norm_num, ← zpow_natCast, ← zpow_add₀ (by norm_num),
      ← zpow_add₀ (by norm_num)]
    rfl
  have hten : (2 : ℚ) ^ (1024 : ℤ) < 10 ^ (309 : ℤ) := by
    exact_mod_cast (by decide +kernel : 2 ^ 1024 < 10 ^ 309)
  exact (le_of_mul_le_mul_left (hle.trans hpower.le) (by norm_num)).trans_lt hten

theorem Binary64.Attracts.ten_zpow_lt (hx : x.WellFormed) (hpos : 0 < x.significand)
    (h : x.Attracts q) : 10 ^ (-324 : ℤ) < q := by
  have hsignificand : (2 : ℚ) ≤ (bounds x).1 := by exact_mod_cast two_le_bounds hpos
  have hexponent : (2 : ℚ) ^ (-1074 : ℤ) ≤ 2 ^ x.exponent := two_zpow_le_iff.mpr hx.le_exponent
  have hle : 2 * 2 ^ (-1074 : ℤ) ≤ 4 * q :=
    (mul_le_mul hsignificand hexponent (by positivity) (by positivity)).trans h.lower
  have hpower : 4 * 2 ^ (-1075 : ℤ) = 2 * (2 : ℚ) ^ (-1074 : ℤ) := by
    rw [show (-1074 : ℤ) = 1 + -1075 by rfl, zpow_one_add₀ (by norm_num)]
    ring
  have hten : (10 : ℚ) ^ (-324 : ℤ) < 2 ^ (-1075 : ℤ) := by
    rw [zpow_neg, zpow_neg]
    refine inv_strictAnti₀ (by positivity) ?_
    exact_mod_cast (by decide +kernel : 2 ^ 1075 < 10 ^ 324)
  exact hten.trans_le (le_of_mul_le_mul_left (hpower.le.trans hle) (by norm_num))

/-- A decimal is read as the number that **attracts** it. -/
theorem ofScientific_of_attracts (hx : x.WellFormed) (hpos : 0 < x.significand)
    (h : x.Attracts (n * 10 ^ e)) : ofScientific x.negative n e = some x := by
  have hmost := h.lt_ten_zpow hx
  have hleast := h.ten_zpow_lt hx hpos
  have hunit : (0 : ℚ) < 10 ^ e := zpow_pos (by norm_num) e
  have hn : 0 < n := by
    rw [Nat.pos_iff_ne_zero]
    rintro rfl
    rw [Nat.cast_zero, zero_mul] at hleast
    exact absurd hleast (not_lt.mpr (by positivity))
  have hcount : 0 < digitCount n := Nat.length_toDigits_pos
  have hbelow : (10 : ℚ) ^ ((digitCount n : ℤ) + e - 1) < 10 ^ (309 : ℤ) := by
    refine lt_of_le_of_lt ?_ hmost
    have hdigits : ((10 : ℚ) ^ (digitCount n - 1)) ≤ n := by exact_mod_cast pow_digitCount_le hn
    rw [show (digitCount n : ℤ) + e - 1 = (digitCount n - 1 : ℕ) + e by omega,
      zpow_add₀ (by norm_num), zpow_natCast]
    exact mul_le_mul_of_nonneg_right hdigits hunit.le
  have habove : (10 : ℚ) ^ (-324 : ℤ) < 10 ^ ((digitCount n : ℤ) + e) := by
    refine hleast.trans ?_
    have hdigits : (n : ℚ) < 10 ^ digitCount n := by exact_mod_cast lt_pow_digitCount n
    rw [zpow_add₀ (by norm_num), zpow_natCast]
    exact mul_lt_mul_of_pos_right hdigits hunit
  rw [zpow_lt_zpow_iff_right₀ (by norm_num)] at hbelow habove
  rw [ofScientific, if_neg hn.ne', if_neg (by omega), if_neg (by omega)]
  refine nearest_of_attracts hx hpos ?_ ?_ ?_ h
  · exact Nat.mul_pos hn (Nat.pow_pos (by decide))
  · exact Nat.pow_pos (by decide)
  · have hten := zpow_mul_toNat (b := 10) (by norm_num) e
    rw [Nat.cast_mul, cast_tenPow, cast_tenPow, mul_assoc, hten]

end Magnitude

/-! ### Digits -/

/-- Characters that are **digits**. -/
def AllDigits (cs : List Char) : Prop :=
  ∀ c ∈ cs, c.isDigit = true

section Digits

variable {cs ds : List Char}

theorem AllDigits.append (hcs : AllDigits cs) (hds : AllDigits ds) : AllDigits (cs ++ ds) :=
  fun c hc => (List.mem_append.mp hc).elim (hcs c) (hds c)

theorem AllDigits.take (h : AllDigits cs) (n : ℕ) : AllDigits (cs.take n) :=
  fun c hc => h c (List.mem_of_mem_take hc)

theorem AllDigits.drop (h : AllDigits cs) (n : ℕ) : AllDigits (cs.drop n) :=
  fun c hc => h c (List.mem_of_mem_drop hc)

theorem allDigits_toDigits (n : ℕ) : AllDigits (Nat.toDigits 10 n) :=
  fun _ hc => Nat.isDigit_of_mem_toDigits (by decide) (by decide) hc

theorem allDigits_zeros (n : ℕ) : AllDigits (List.replicate n '0') :=
  fun _ hc => List.eq_of_mem_replicate hc ▸ rfl

theorem AllDigits.isDigit_eq_true (h : AllDigits cs) : ∀ c ∈ cs, isDigit c = true :=
  fun c hc => by rw [isDigit, digit?_of_isDigit (h c hc), Option.isSome_some]

theorem AllDigits.natural?_eq (h : AllDigits cs) (hne : cs ≠ []) :
    natural? cs = some (Nat.ofDigitChars 10 cs 0) := by
  cases cs with
  | nil => exact absurd rfl hne
  | cons c cs => exact digitsFrom_eq h 0

end Digits

/-! ### Numerals -/

/-- What **ends** a numeral: nothing, or an exponent. -/
inductive Ending : List Char → ℤ → Prop where
  | none : Ending [] 0
  | exponent (e : ℤ) : Ending ('e' :: (if e < 0 then '-' else '+') :: Nat.toDigits 10 e.natAbs) e

section Ending

variable {cs tail whole fraction : List Char} {n : ℕ} {e : ℤ}

theorem Ending.exponent?_eq (h : Ending tail e) : exponent? tail = some e := by
  cases h with
  | none => rfl
  | exponent =>
    rw [exponent?, if_pos (.inl rfl)]
    rcases lt_or_ge e 0 with he | he
    · rw [if_pos he]
      simp only [splitSign, natural?_toDigits, if_true]
      exact congrArg some (by omega : -(e.natAbs : ℤ) = e)
    · rw [if_neg (not_lt.mpr he)]
      simp only [splitSign, natural?_toDigits, Bool.false_eq_true, if_false]
      exact congrArg some (by omega : (e.natAbs : ℤ) = e)

theorem Ending.takeWhile_append (h : Ending tail e) (hcs : AllDigits cs) :
    (cs ++ tail).takeWhile isDigit = cs := by
  rw [List.takeWhile_append_of_pos hcs.isDigit_eq_true]
  cases h <;> exact List.append_nil cs

theorem Ending.dropWhile_append (h : Ending tail e) (hcs : AllDigits cs) :
    (cs ++ tail).dropWhile isDigit = tail := by
  rw [List.dropWhile_append_of_pos hcs.isDigit_eq_true]
  cases h <;> rfl

/-- Characters that **spell** the decimal `n · 10 ^ e`. -/
structure Spells (cs : List Char) (n : ℕ) (e : ℤ) : Prop where
  first : ∃ c rest, cs = c :: rest ∧ c.isDigit = true
  reads : ∀ negative x, ofScientific negative n e = some x →
    unsigned? negative cs = some (.finite x)

theorem toLower_of_isDigit {c : Char} (hc : c.isDigit = true) : c.toLower = c := by
  refine Char.toLower_eq_of_not_isUpper fun hupper => ?_
  simp [Char.isDigit, UInt32.le_iff_toNat_le] at hc
  simp [Char.isUpper, UInt32.le_iff_toNat_le] at hupper
  omega

/-- A numeral is read by its digits, its point and its exponent. -/
theorem Spells.of_splitPoint (hfirst : ∃ c rest, cs = c :: rest ∧ c.isDigit = true)
    (hsplit : splitPoint cs = (whole, fraction, tail)) (hn : natural? (whole ++ fraction) = some n)
    (he : exponent? tail = some e) : Spells cs n (e - fraction.length) := by
  refine ⟨hfirst, fun negative x hx => ?_⟩
  obtain ⟨c, rest, rfl, hc⟩ := hfirst
  -- the words for what is not finite begin with letters
  have hi : c ≠ 'i' := fun h => absurd (h ▸ hc) (by decide)
  have hn' : c ≠ 'n' := fun h => absurd (h ▸ hc) (by decide)
  have hword : ["inf", "infinity", "nan"].any
      (fun word => word.toList = (c :: rest).map Char.toLower) = false := by
    simp [toLower_of_isDigit hc, hi.symm, hn'.symm]
  rw [unsigned?, hword, if_neg Bool.false_ne_true, hsplit]
  dsimp only
  rw [hn, he]
  dsimp only
  rw [hx]

theorem exists_digit_of_append (hwhole : AllDigits whole) (hne : whole ≠ []) (rest : List Char) :
    ∃ c cs, whole ++ rest = c :: cs ∧ c.isDigit = true := by
  obtain ⟨c, cs, rfl⟩ := List.exists_cons_of_ne_nil hne
  exact ⟨c, cs ++ rest, rfl, hwhole c List.mem_cons_self⟩

/-- Digits without a point. -/
theorem spells_whole (hwhole : AllDigits whole) (hne : whole ≠ []) (htail : Ending tail e) :
    Spells (whole ++ tail) (Nat.ofDigitChars 10 whole 0) e := by
  have hsplit : splitPoint (whole ++ tail) = (whole, [], tail) := by
    rw [splitPoint, htail.takeWhile_append hwhole, htail.dropWhile_append hwhole]
    cases htail <;> rfl
  have hread : natural? (whole ++ []) = some (Nat.ofDigitChars 10 whole 0) := by
    rw [List.append_nil]
    exact hwhole.natural?_eq hne
  have hspells := Spells.of_splitPoint (exists_digit_of_append hwhole hne tail) hsplit hread
    htail.exponent?_eq
  rwa [List.length_nil, Nat.cast_zero, sub_zero] at hspells

/-- Digits with a point among them. -/
theorem spells_pointed (hwhole : AllDigits whole) (hne : whole ≠ [])
    (hfraction : AllDigits fraction) (htail : Ending tail e) :
    Spells (whole ++ '.' :: (fraction ++ tail)) (Nat.ofDigitChars 10 (whole ++ fraction) 0)
      (e - fraction.length) := by
  have hsplit : splitPoint (whole ++ '.' :: (fraction ++ tail)) = (whole, fraction, tail) := by
    rw [splitPoint, List.takeWhile_append_of_pos hwhole.isDigit_eq_true,
      List.dropWhile_append_of_pos hwhole.isDigit_eq_true]
    have htake : ('.' :: (fraction ++ tail)).takeWhile isDigit = [] := rfl
    have hdrop : ('.' :: (fraction ++ tail)).dropWhile isDigit = '.' :: (fraction ++ tail) := rfl
    rw [htake, hdrop, List.append_nil]
    show (whole, (fraction ++ tail).takeWhile isDigit, (fraction ++ tail).dropWhile isDigit) = _
    rw [htail.takeWhile_append hfraction, htail.dropWhile_append hfraction]
  refine Spells.of_splitPoint (exists_digit_of_append hwhole hne _) hsplit ?_ htail.exponent?_eq
  exact (hwhole.append hfraction).natural?_eq (List.append_ne_nil_of_left_ne_nil hne fraction)

end Ending

/-! ### Layouts -/

/-- A text that **writes** a value, as a whole number and a power of ten. -/
def Writes (text : String) (q : ℚ) : Prop :=
  ∃ n e, Spells text.toList n e ∧ (n * 10 ^ e : ℚ) = q

section Layout

variable {d : Scientific}

theorem ofDigitChars_toDigits_zeros (n k : ℕ) :
    Nat.ofDigitChars 10 (Nat.toDigits 10 n ++ List.replicate k '0') 0 = 10 ^ k * n := by
  rw [Nat.ofDigitChars_append, Nat.ofDigitChars_ten_toDigits, Nat.ofDigitChars_replicate_zero]

/-- A whole number, with its zeros. -/
theorem writes_whole (pointed : Bool) (h : 0 ≤ d.exponent) :
    Writes (d.positional pointed) d.value := by
  obtain ⟨k, hk⟩ := Int.eq_ofNat_of_zero_le h
  have hwhole := (allDigits_toDigits d.digits).append (allDigits_zeros k)
  have hne : Nat.toDigits 10 d.digits ++ List.replicate k '0' ≠ [] :=
    List.append_ne_nil_of_left_ne_nil Nat.toDigits_ne_nil _
  have hread := ofDigitChars_toDigits_zeros d.digits k
  rw [Scientific.positional, if_pos h, hk, Scientific.value, hk, zpow_natCast]
  cases pointed with
  | false =>
    have hspells := spells_whole hwhole hne .none
    rw [hread, List.append_nil] at hspells
    refine ⟨_, _, by simpa [zeros] using hspells, ?_⟩
    push_cast
    ring
  | true =>
    have hspells := spells_pointed hwhole hne (allDigits_zeros 1) .none
    rw [Nat.ofDigitChars_append, hread, Nat.ofDigitChars_replicate_zero] at hspells
    refine ⟨_, _, by simpa [zeros] using hspells, ?_⟩
    push_cast
    norm_num
    ring

/-- A fraction whose point is among its digits. -/
theorem writes_among (pointed : Bool) (h : ¬ 0 ≤ d.exponent)
    (hshift : (-d.exponent).toNat < (Nat.toDigits 10 d.digits).length) :
    Writes (d.positional pointed) d.value := by
  have hdigits := allDigits_toDigits d.digits
  rw [Scientific.positional, if_neg h, if_pos hshift, Scientific.value]
  generalize hcut : (Nat.toDigits 10 d.digits).length - (-d.exponent).toNat = cut
  have hne : (Nat.toDigits 10 d.digits).take cut ≠ [] := by
    rw [Ne, List.take_eq_nil_iff]
    rintro (hzero | hnil)
    · omega
    · exact Nat.toDigits_ne_nil hnil
  have hspells := spells_pointed (hdigits.take cut) hne (hdigits.drop cut) .none
  rw [List.take_append_drop, Nat.ofDigitChars_ten_toDigits, List.length_drop] at hspells
  refine ⟨_, _, by simpa using hspells, ?_⟩
  congr 2
  omega

/-- A fraction that begins with zeros. -/
theorem writes_zeros (pointed : Bool) (h : ¬ 0 ≤ d.exponent)
    (hshift : ¬ (-d.exponent).toNat < (Nat.toDigits 10 d.digits).length) :
    Writes (d.positional pointed) d.value := by
  have hdigits := allDigits_toDigits d.digits
  rw [Scientific.positional, if_neg h, if_neg hshift, Scientific.value]
  generalize hgap : (-d.exponent).toNat - (Nat.toDigits 10 d.digits).length = gap
  have hspells := spells_pointed (allDigits_zeros 1) (by decide)
    ((allDigits_zeros gap).append hdigits) .none
  rw [Nat.ofDigitChars_append, Nat.ofDigitChars_append, Nat.ofDigitChars_replicate_zero,
    Nat.ofDigitChars_replicate_zero, Nat.mul_zero, Nat.ofDigitChars_ten_toDigits,
    List.length_append, List.length_replicate] at hspells
  refine ⟨_, _, by simpa [zeros] using hspells, ?_⟩
  congr 2
  omega

theorem writes_positional (pointed : Bool) (d : Scientific) :
    Writes (d.positional pointed) d.value := by
  by_cases h : 0 ≤ d.exponent
  · exact writes_whole pointed h
  · by_cases hshift : (-d.exponent).toNat < (Nat.toDigits 10 d.digits).length
    · exact writes_among pointed h hshift
    · exact writes_zeros pointed h hshift

/-- One digit before the point, if there is one, and an exponent. -/
theorem writes_exponential (d : Scientific) :
    Writes d.exponential d.value := by
  have hdigits := allDigits_toDigits d.digits
  have hread : Nat.ofDigitChars 10 (Nat.toDigits 10 d.digits) 0 = d.digits :=
    Nat.ofDigitChars_ten_toDigits
  have hne : Nat.toDigits 10 d.digits ≠ [] := Nat.toDigits_ne_nil
  obtain ⟨c, rest, hcons⟩ := List.exists_cons_of_ne_nil hne
  rw [Scientific.exponential, Scientific.value]
  rw [hcons] at hdigits hread ⊢
  generalize hexponent : d.exponent + (c :: rest).length - 1 = e
  have hsign : (if e < 0 then "-" else "+").toList = [if e < 0 then '-' else '+'] := by
    split <;> rfl
  cases rest with
  | nil =>
    have hspells := spells_whole hdigits (List.cons_ne_nil _ _) (.exponent e)
    rw [hread] at hspells
    refine ⟨_, _, by simpa [hsign, Nat.toString_eq_ofList_toDigits] using hspells, ?_⟩
    congr 2
    simpa using hexponent.symm
  | cons c' rest =>
    have hspells := spells_pointed (hdigits.take 1) (by simp) (hdigits.drop 1) (.exponent e)
    rw [List.take_append_drop, hread] at hspells
    refine ⟨_, _, by simpa [hsign, Nat.toString_eq_ofList_toDigits] using hspells, ?_⟩
    congr 2
    simp at hexponent
    omega

/-- A layout of a decimal **writes its value**. -/
theorem writes_layout (style : Style) (d : Scientific) :
    Writes (d.layout style) d.value := by
  rw [Scientific.layout]
  cases style.plain with
  | none => exact writes_positional _ d
  | some range =>
    dsimp only
    split_ifs
    · exact writes_positional _ d
    · exact writes_exponential d

end Layout

/-! ### Texts -/

theorem numeral?_of_spells {negative : Bool} {text : String} {n : ℕ} {e : ℤ} {x : Binary64}
    (h : Spells text.toList n e) (hx : ofScientific negative n e = some x) :
    numeral? ((if negative then "-" else "") ++ text) = some (.finite x) := by
  obtain ⟨c, rest, hcons, hc⟩ := h.first
  have hread := h.reads negative x hx
  cases negative with
  | true =>
    rw [numeral?, if_pos rfl, String.toList_append]
    exact hread
  | false =>
    have hminus : c ≠ '-' := fun h => absurd (h ▸ hc) (by decide)
    have hplus : c ≠ '+' := fun h => absurd (h ▸ hc) (by decide)
    rw [hcons] at hread
    simp [numeral?, hcons, splitSign, hminus, hplus, hread]

theorem zero_wellFormed (negative : Bool) : (Binary64.zero negative).WellFormed :=
  ⟨Nat.pow_pos (by decide), le_rfl, (by decide : (-1074 : ℤ) ≤ 971), .inl rfl⟩

theorem eq_zero_of_wellFormed {x : Binary64} (hx : x.WellFormed) (h : x.significand = 0) :
    x = .zero x.negative := by
  have hexponent : x.exponent = Binary64.minExponent := by
    rcases hx.normal with hleast | hnormal
    · exact hleast
    · rw [h] at hnormal
      exact absurd hnormal (by decide)
  obtain ⟨negative, significand, exponent⟩ := x
  dsimp only at h hexponent
  rw [h, hexponent, Binary64.zero]

/-- A number is **read from its text**, in every style. -/
theorem numeral?_print (style : Style) {x : Binary64} (hx : x.WellFormed) :
    numeral? (x.print style) = some (.finite x) := by
  rw [Binary64.print]
  rcases Nat.eq_zero_or_pos x.significand with hzero | hpos
  · obtain ⟨n, e, hspells, hvalue⟩ := writes_layout style ⟨0, 0⟩
    have hn : n = 0 := by
      rw [Scientific.value, Nat.cast_zero, zero_mul] at hvalue
      exact_mod_cast (mul_eq_zero_iff_right (zpow_ne_zero e (by norm_num))).mp hvalue
    rw [if_pos hzero]
    refine numeral?_of_spells hspells ?_
    rw [ofScientific, if_pos hn, ← eq_zero_of_wellFormed hx hzero]
  · obtain ⟨n, e, hspells, hvalue⟩ := writes_layout style (shortest style.tie x)
    rw [if_neg hpos.ne']
    refine numeral?_of_spells hspells (ofScientific_of_attracts hx hpos ?_)
    rw [hvalue]
    exact shortest_attracts hx hpos style.tie

/-- Different numbers have different texts. -/
theorem print_inj {style : Style} {x y : Binary64} (hx : x.WellFormed) (hy : y.WellFormed)
    (h : x.print style = y.print style) : x = y := by
  have hread := numeral?_print style hx
  rw [h, numeral?_print style hy] at hread
  cases hread
  rfl

/-! ### What is read -/

theorem ofScientific_wellFormed {negative : Bool} {n : ℕ} {e : ℤ} {x : Binary64}
    (h : ofScientific negative n e = some x) : x.WellFormed := by
  rw [ofScientific] at h
  dsimp only at h
  split_ifs at h with hzero hlarge hsmall
  · exact Option.some.inj h ▸ zero_wellFormed negative
  · exact Option.some.inj h ▸ zero_wellFormed negative
  · refine nearest_wellFormed (Nat.mul_pos (Nat.pos_of_ne_zero hzero) ?_) ?_ h
    · exact Nat.pow_pos (by decide)
    · exact Nat.pow_pos (by decide)

theorem wellFormed_of_numeral? {text : String} {x : Binary64}
    (h : numeral? text = some (.finite x)) : x.WellFormed := by
  rw [numeral?] at h
  obtain ⟨negative, cs⟩ := splitSign text.toList
  dsimp only at h
  rw [unsigned?] at h
  split at h
  · cases h
  · dsimp only at h
    split at h
    · split at h
      · next hread =>
        cases h
        exact ofScientific_wellFormed hread
      · cases h
    · cases h

/-- The **well-formed** numbers are those that can be read. -/
theorem wellFormed_iff_exists_numeral? {x : Binary64} :
    x.WellFormed ↔ ∃ text, numeral? text = some (.finite x) :=
  ⟨fun hx => ⟨x.print ⟨none, false, .up⟩, numeral?_print _ hx⟩,
    fun ⟨_, h⟩ => wellFormed_of_numeral? h⟩

/-- The number nearest to an integer is well-formed. -/
theorem ofInt_wellFormed (i : ℤ) : (Binary64.ofInt i).WellFormed := by
  rw [Binary64.ofInt]
  split_ifs with hzero
  · exact zero_wellFormed false
  · cases hnearest : nearest (i < 0) i.natAbs 1 with
    | none => exact zero_wellFormed false
    | some x => exact nearest_wellFormed (Int.natAbs_pos.mpr hzero) Nat.one_pos hnearest

end Arborist.Decimal
