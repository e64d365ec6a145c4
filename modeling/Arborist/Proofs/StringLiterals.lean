import Arborist.Proofs.Legibility

/-!
# Reading string literals

A string literal is read from left to right (`readLiteral`): a backslash opens an escape, the letter
`u` an escape with exactly four hexadecimal digits, the closing quote ends the literal, and every
other character stands for itself.

Whether a text comes back from its literal is a matter of its characters. Those of the first plane
do (`readChars_escape`). Every other one is written with five digits or six, of which the reader
takes the first four for another character and the rest as they are (`readChars_astral`). So a text
**is read from its literal** if and only if all its characters are of the first plane, and two texts
have the same literal only where a number with six digits begins with one that has five
(`readLiteral_quote_iff`). `readLiteral_quote_astral` shows both.
-/

namespace Arborist.Query

/-! ### The reader -/

/-- The value of a hexadecimal digit. -/
def hexDigit? (c : Char) : Option Nat :=
  if '0' ≤ c ∧ c ≤ '9' then some (c.toNat - '0'.toNat)
  else if 'a' ≤ c ∧ c ≤ 'f' then some (c.toNat - 'a'.toNat + 10)
  else if 'A' ≤ c ∧ c ≤ 'F' then some (c.toNat - 'A'.toNat + 10)
  else none

/-- The number that hexadecimal digits continue. -/
def hexFrom (n : Nat) : List Char → Option Nat
  | [] => some n
  | c :: cs =>
    match hexDigit? c with
    | some d => hexFrom (16 * n + d) cs
    | none => none

/-- The character with a number, if there is one. -/
def charAt? (n : Nat) : Option Char :=
  if n.isValidChar then some (Char.ofNat n) else none

/-- Puts a character in front of what was read. -/
def inFront (c : Char) (p : List Char × List Char) : List Char × List Char :=
  (c :: p.1, p.2)

/-- Reads the characters of a string literal up to its closing quote, and what follows that. -/
def readChars : List Char → Option (List Char × List Char)
  | [] => none
  | c :: cs =>
    if c = '"' then some ([], cs)
    else if c = '\\' then
      match cs with
      | 'u' :: w :: x :: y :: z :: rest =>
        match (hexFrom 0 [w, x, y, z]).bind charAt? with
        | some d => (readChars rest).map (inFront d)
        | none => none
      | e :: rest =>
        match shortEscapes.lookup e with
        | some d => (readChars rest).map (inFront d)
        | none => none
      | [] => none
    else (readChars cs).map (inFront c)

/-- Reads a **string literal**: its text, and what follows it. -/
def readLiteral : List Char → Option (String × List Char)
  | '"' :: cs => (readChars cs).map fun p => (String.ofList p.1, p.2)
  | _ => none

/-! ### Hexadecimal digits -/

theorem hexDigit?_digitChar : ∀ d < 16, hexDigit? d.digitChar = some d := by
  decide

theorem hexFrom_append (n : Nat) (cs ds : List Char) :
    hexFrom n (cs ++ ds) = (hexFrom n cs).bind fun m => hexFrom m ds := by
  induction cs generalizing n with
  | nil => rfl
  | cons c cs ih =>
    rw [List.cons_append, hexFrom, hexFrom]
    cases hexDigit? c with
    | none => rfl
    | some d => exact ih _

/-- The digits of a number are read as that number. -/
theorem hexFrom_toDigits (n : Nat) : hexFrom 0 (Nat.toDigits 16 n) = some n := by
  induction n using Nat.strongRec with
  | ind n ih =>
    have hlast : hexDigit? (n % 16).digitChar = some (n % 16) :=
      hexDigit?_digitChar _ (Nat.mod_lt n (by decide))
    by_cases hn : n < 16
    · rw [Nat.toDigits_of_lt_base hn]
      rw [Nat.mod_eq_of_lt hn] at hlast
      simp [hexFrom, hlast]
    · rw [Nat.toDigits_of_base_le (by decide) (Nat.le_of_not_lt hn), hexFrom_append,
        ih _ (Nat.div_lt_self (by omega) (by decide))]
      simp [hexFrom, hlast, Nat.div_add_mod]

theorem toDigits_inj {n m : Nat} (h : Nat.toDigits 16 n = Nat.toDigits 16 m) : n = m := by
  have hn := hexFrom_toDigits n
  rw [h, hexFrom_toDigits] at hn
  exact (Option.some.inj hn).symm

/-- A number doesn't begin with a zero. -/
theorem head?_toDigits {n : Nat} (hn : 0 < n) : (Nat.toDigits 16 n).head? ≠ some '0' := by
  induction n using Nat.strongRec with
  | ind n ih =>
    by_cases hlt : n < 16
    · have hdigits : ∀ d < 16, 0 < d → [d.digitChar].head? ≠ some '0' := by decide
      rw [Nat.toDigits_of_lt_base hlt]
      exact hdigits n hlt hn
    · have hne : Nat.toDigits 16 (n / 16) ≠ [] := Nat.toDigits_ne_nil
      rw [Nat.toDigits_of_base_le (by decide) (Nat.le_of_not_lt hlt),
        List.head?_append_of_ne_nil _ hne]
      exact ih _ (Nat.div_lt_self hn (by decide)) (by omega)

/-- From four digits on nothing is put in front of a number. -/
theorem hexDigits_of_le {n : Nat} (hn : 0x10000 ≤ n) : hexDigits n = Nat.toDigits 16 n := by
  have hlength : ¬ (Nat.toDigits 16 n).length ≤ 4 := by
    rw [Nat.length_toDigits_le_iff (by decide) (by decide)]
    omega
  rw [hexDigits, show 4 - (Nat.toDigits 16 n).length = 0 by omega, List.replicate_zero,
    List.nil_append]

theorem hexDigit?_lt {c : Char} {d : Nat} (h : hexDigit? c = some d) : d < 16 := by
  have hle : ∀ {a b : Char}, a ≤ b → a.toNat ≤ b.toNat := fun h => h
  rw [hexDigit?] at h
  split_ifs at h with h0 ha hA
  · have := hle h0.2
    simp at h this
    omega
  · have := hle ha.2
    simp at h this
    omega
  · have := hle hA.2
    simp at h this
    omega

theorem hexFrom_lt {n m : Nat} {cs : List Char} (h : hexFrom n cs = some m) :
    m < (n + 1) * 16 ^ cs.length := by
  induction cs generalizing n with
  | nil =>
    obtain rfl := Option.some.inj h
    simp
  | cons c cs ih =>
    rw [hexFrom] at h
    split at h
    · next d hd =>
      have hlt := hexDigit?_lt hd
      calc m < (16 * n + d + 1) * 16 ^ cs.length := ih h
        _ ≤ ((n + 1) * 16) * 16 ^ cs.length := Nat.mul_le_mul_right _ (by omega)
        _ = (n + 1) * 16 ^ (c :: cs).length := by
          rw [List.length_cons, Nat.pow_succ', Nat.mul_assoc]
    · cases h

theorem toNat_of_charAt? {n : Nat} {c : Char} (h : charAt? n = some c) : c.toNat = n := by
  rw [charAt?] at h
  split at h
  · next hvalid =>
    obtain rfl := Option.some.inj h
    rw [Char.toNat_ofNat, if_pos hvalid]
  · cases h

/-! ### Characters of the first plane -/

theorem readChars_plain {c : Char} (hquote : c ≠ '"') (hslash : c ≠ '\\') (cs : List Char) :
    readChars (c :: cs) = (readChars cs).map (inFront c) := by
  rw [readChars.eq_def]
  simp only [if_neg hquote, if_neg hslash]

theorem readChars_numbered (w x y z : Char) (rest : List Char) :
    readChars ('\\' :: 'u' :: w :: x :: y :: z :: rest) =
      match (hexFrom 0 [w, x, y, z]).bind charAt? with
      | some d => (readChars rest).map (inFront d)
      | none => none := rfl

theorem readChars_short {x c : Char} (h : (x, c) ∈ shortEscapes) (rest : List Char) :
    readChars ('\\' :: x :: rest) = (readChars rest).map (inFront c) := by
  simp only [shortEscapes, List.mem_cons, List.not_mem_nil, or_false, Prod.mk.injEq] at h
  obtain ⟨rfl, rfl⟩ | ⟨rfl, rfl⟩ | ⟨rfl, rfl⟩ | ⟨rfl, rfl⟩ | ⟨rfl, rfl⟩ := h <;> rfl

/-- The numbers that control characters are written with. -/
theorem hexDigits_control : ∀ n < 32,
    hexDigits n = ['0', '0', (n / 16).digitChar, (n % 16).digitChar] ∧
      (hexFrom 0 ['0', '0', (n / 16).digitChar, (n % 16).digitChar]).bind charAt? =
        some (Char.ofNat n) := by
  decide +kernel

/-- **A character of the first plane** is read from how it is written, whatever follows. -/
theorem readChars_escape {c : Char} (hc : c.toNat ≤ 0xFFFF) (rest : List Char) :
    readChars (escapeChar c ++ rest) = (readChars rest).map (inFront c) := by
  have hescapes := escapes hc
  generalize escapeChar c = u at hescapes
  cases hescapes with
  | plain hquote hslash => exact readChars_plain hquote hslash rest
  | short hx => exact readChars_short hx rest
  | numbered hlt =>
    obtain ⟨hdigits, hread⟩ := hexDigits_control _ hlt
    rw [hdigits]
    show readChars ('\\' :: 'u' :: '0' :: '0' :: _ :: _ :: rest) = _
    rw [readChars_numbered, hread, Char.ofNat_toNat]

/-! ### Other characters -/

theorem escapeChar_astral {c : Char} (hc : 0xFFFF < c.toNat) :
    escapeChar c = '\\' :: 'u' :: Nat.toDigits 16 c.toNat := by
  have hne : ∀ d : Char, d.toNat ≤ 0xFFFF → c ≠ d := by
    rintro d hd rfl
    omega
  rw [escapeChar, if_neg (hne _ (by decide)), if_neg (hne _ (by decide)),
    if_neg (hne _ (by decide)), if_neg (hne _ (by decide)), if_neg (hne _ (by decide)),
    if_neg (by omega), hexDigits_of_le hc]

/-- Where **any other character** is written, one of the first plane is read. -/
theorem readChars_astral {c d : Char} {rest text after : List Char} (hc : 0xFFFF < c.toNat)
    (h : readChars (escapeChar c ++ rest) = some (d :: text, after)) : d.toNat ≤ 0xFFFF := by
  have hlength : ¬ (Nat.toDigits 16 c.toNat).length ≤ 4 := by
    rw [Nat.length_toDigits_le_iff (by decide) (by decide)]
    omega
  rw [escapeChar_astral hc] at h
  match hdigits : Nat.toDigits 16 c.toNat with
  | [] | [_] | [_, _] | [_, _, _] => simp [hdigits] at hlength
  | w :: x :: y :: z :: more =>
    rw [hdigits] at h
    change readChars ('\\' :: 'u' :: w :: x :: y :: z :: (more ++ rest)) = _ at h
    rw [readChars_numbered] at h
    split at h
    · next e he =>
      obtain ⟨n, hn, hchar⟩ := Option.bind_eq_some_iff.mp he
      obtain ⟨p, -, hp⟩ := Option.map_eq_some_iff.mp h
      obtain ⟨rfl, -⟩ := List.cons.inj (Prod.mk.inj hp).1
      have hlt := hexFrom_lt hn
      rw [toNat_of_charAt? hchar]
      simp at hlt
      omega
    · cases h

/-- **The characters of a literal** are those that it was written for, if they are of the first
plane, and only then. -/
theorem readChars_quoted_iff (cs rest : List Char) :
    readChars (cs.flatMap escapeChar ++ '"' :: rest) = some (cs, rest) ↔
      ∀ c ∈ cs, c.toNat ≤ 0xFFFF := by
  induction cs with
  | nil =>
    refine iff_of_true ?_ nofun
    rw [List.flatMap_nil, List.nil_append, readChars.eq_def]
    rfl
  | cons c cs ih =>
    rw [List.flatMap_cons, List.append_assoc, List.forall_mem_cons]
    by_cases hc : c.toNat ≤ 0xFFFF
    · rw [readChars_escape hc, Option.map_eq_some_iff, ← ih]
      constructor
      · rintro ⟨p, hp, heq⟩
        obtain ⟨htext, hrest⟩ := Prod.mk.inj heq
        rw [hp, ← hrest, ← (List.cons.inj htext).2]
        exact ⟨hc, rfl⟩
      · rintro ⟨-, h⟩
        exact ⟨_, h, rfl⟩
    · exact iff_of_false (fun h => hc (readChars_astral (Nat.lt_of_not_le hc) h)) fun h => hc h.1

/-! ### Literals that are the same -/

/-- Two characters whose written forms **run together**: the number of the first has five digits,
and that of the second has one digit more. -/
def RunTogether (c d : Char) : Prop :=
  0xFFFF < c.toNat ∧ d.toNat / 16 = c.toNat

theorem toNat_le (c : Char) : c.toNat ≤ 0x10FFFF := by
  have hvalid : c.toNat < 0xD800 ∨ 0xDFFF < c.toNat ∧ c.toNat < 0x110000 := c.valid
  omega

theorem length_toDigits {n : Nat} (hn : 0xFFFF < n) (hle : n ≤ 0x10FFFF) :
    (Nat.toDigits 16 n).length = if n < 0x100000 then 5 else 6 := by
  have hdigits (k : Nat) (hk : 0 < k) : (Nat.toDigits 16 n).length ≤ k ↔ n < 16 ^ k :=
    Nat.length_toDigits_le_iff (by decide) hk
  have hfour := hdigits 4 (by decide)
  have hfive := hdigits 5 (by decide)
  have hsix := hdigits 6 (by decide)
  split <;> omega

/-- Numbers of five digits and of six, of which one begins the other. -/
theorem runTogether_of_digits {c d : Char} {r s : List Char} (hc : 0xFFFF < c.toNat)
    (hlt : c.toNat < 0x100000) (hd : 0x100000 ≤ d.toNat)
    (heq : Nat.toDigits 16 c.toNat ++ r = Nat.toDigits 16 d.toNat ++ s) : RunTogether c d := by
  have hle := toNat_le d
  rw [Nat.toDigits_of_base_le (by decide) (by omega : 16 ≤ d.toNat), List.append_assoc] at heq
  have hlength : (Nat.toDigits 16 c.toNat).length = (Nat.toDigits 16 (d.toNat / 16)).length := by
    rw [length_toDigits hc (toNat_le c), length_toDigits (by omega) (by omega), if_pos hlt,
      if_pos (by omega)]
  exact ⟨hc, (toDigits_inj (List.append_inj heq hlength).1).symm⟩

theorem astral_cancel {c d : Char} {r s : List Char} (hc : 0xFFFF < c.toNat) (hd : 0xFFFF < d.toNat)
    (heq : Nat.toDigits 16 c.toNat ++ r = Nat.toDigits 16 d.toNat ++ s) :
    c = d ∧ r = s ∨ RunTogether c d ∨ RunTogether d c := by
  by_cases hsame : c.toNat < 0x100000 ↔ d.toNat < 0x100000
  · have hlength : (Nat.toDigits 16 c.toNat).length = (Nat.toDigits 16 d.toNat).length := by
      rw [length_toDigits hc (toNat_le c), length_toDigits hd (toNat_le d)]
      simp only [hsame]
    obtain ⟨hdigits, hrest⟩ := List.append_inj heq hlength
    exact .inl ⟨Char.toNat_inj.mp (toDigits_inj hdigits), hrest⟩
  · by_cases hlt : c.toNat < 0x100000
    · exact .inr (.inl (runTogether_of_digits hc hlt (by omega) heq))
    · exact .inr (.inr (runTogether_of_digits hd (by omega) (by omega) heq.symm))

/-- A character of the first plane is never written like the beginning of another one. -/
theorem Escapes.ne_astral {c d : Char} {u r s : List Char} (hu : Escapes c u)
    (hd : 0xFFFF < d.toNat) : u ++ r ≠ escapeChar d ++ s := by
  rw [escapeChar_astral hd]
  intro heq
  cases hu with
  | plain hquote hslash => exact hslash (List.cons.inj heq).1
  | short hx => exact shortEscapes_ne _ hx (List.cons.inj (List.cons.inj heq).2).1
  | numbered hlt =>
    have hnumbers : hexDigits c.toNat ++ r = Nat.toDigits 16 d.toNat ++ s :=
      (List.cons.inj (List.cons.inj heq).2).2
    have hhead := congrArg List.head? hnumbers
    rw [(hexDigits_control _ hlt).1, List.head?_append_of_ne_nil _ Nat.toDigits_ne_nil] at hhead
    exact head?_toDigits (Nat.lt_of_le_of_lt (Nat.zero_le _) hd) hhead.symm

/-- **Written characters** that begin one text are the same, unless they run together. -/
theorem escapeChar_cancel {c d : Char} {r s : List Char}
    (heq : escapeChar c ++ r = escapeChar d ++ s) :
    c = d ∧ r = s ∨ RunTogether c d ∨ RunTogether d c := by
  by_cases hc : c.toNat ≤ 0xFFFF
  · by_cases hd : d.toNat ≤ 0xFFFF
    · exact .inl ((escapes hc).cancel (escapes hd) heq)
    · exact absurd heq ((escapes hc).ne_astral (Nat.lt_of_not_le hd))
  · have hc := Nat.lt_of_not_le hc
    by_cases hd : d.toNat ≤ 0xFFFF
    · exact absurd heq.symm ((escapes hd).ne_astral hc)
    · have hd := Nat.lt_of_not_le hd
      rw [escapeChar_astral hc, escapeChar_astral hd] at heq
      exact astral_cancel hc hd (List.cons.inj (List.cons.inj heq).2).2

theorem escapeChar_ne_quote (c : Char) (r s : List Char) : escapeChar c ++ r ≠ '"' :: s := by
  by_cases hc : c.toNat ≤ 0xFFFF
  · exact (escapes hc).ne_quote
  · rw [escapeChar_astral (Nat.lt_of_not_le hc)]
    exact fun heq => absurd (List.cons.inj heq).1 (by decide)

/-- **Literals that are the same** are literals of one text, unless characters run together. -/
theorem eq_of_quoted_eq {cs ds r s : List Char}
    (heq : cs.flatMap escapeChar ++ '"' :: r = ds.flatMap escapeChar ++ '"' :: s) :
    cs = ds ∨ ∃ c ∈ cs, ∃ d ∈ ds, RunTogether c d ∨ RunTogether d c := by
  induction cs generalizing ds with
  | nil =>
    cases ds with
    | nil => exact .inl rfl
    | cons d ds =>
      rw [List.flatMap_cons, List.append_assoc] at heq
      exact absurd heq.symm (escapeChar_ne_quote d _ _)
  | cons c cs ih =>
    rw [List.flatMap_cons, List.append_assoc] at heq
    cases ds with
    | nil => exact absurd heq (escapeChar_ne_quote c _ _)
    | cons d ds =>
      rw [List.flatMap_cons, List.append_assoc] at heq
      obtain ⟨rfl, hrest⟩ | hrun := escapeChar_cancel heq
      · obtain rfl | ⟨c', hc', d', hd', hrun⟩ := ih hrest
        · exact .inl rfl
        · exact .inr ⟨c', List.mem_cons_of_mem _ hc', d', List.mem_cons_of_mem _ hd', hrun⟩
      · exact .inr ⟨c, List.mem_cons_self, d, List.mem_cons_self, hrun⟩

theorem toList_quote (text : String) :
    (quote text).toList = '"' :: (text.toList.flatMap escapeChar ++ ['"']) := by
  rw [quote, String.toList_ofList, quoteChars, List.cons_append]

/-- A text **is read from its literal**, with nothing left over, if all its characters are of the
first plane, and only then. Two texts have the same literal only if they are the same or have
characters whose written forms run together, which are beyond the first plane. -/
theorem readLiteral_quote_iff (text : String) :
    (readLiteral (quote text).toList = some (text, []) ↔ ∀ c ∈ text.toList, c.toNat ≤ 0xFFFF) ∧
    ∀ other : String, quote text = quote other →
      text = other ∨ ∃ c ∈ text.toList, ∃ d ∈ other.toList, RunTogether c d ∨ RunTogether d c := by
  refine ⟨?_, fun other heq => ?_⟩
  · rw [toList_quote, ← readChars_quoted_iff _ [], readLiteral, Option.map_eq_some_iff]
    constructor
    · rintro ⟨⟨cs, rest⟩, hread, heq⟩
      obtain ⟨rfl, rfl⟩ := Prod.mk.inj heq
      rw [hread, String.toList_ofList]
    · exact fun hread => ⟨_, hread, by rw [String.ofList_toList]⟩
  · have hlists := congrArg String.toList heq
    rw [toList_quote, toList_quote] at hlists
    exact (eq_of_quoted_eq (List.cons.inj hlists).2).imp_left String.toList_inj.mp

/-- A text with what looks like an escape, and with control characters in front of digits. -/
def controls : String :=
  "\\u0041\x00\x1f23\"\té\\"

theorem readLiteral_quote_iff_controls : (∀ c ∈ controls.toList, c.toNat ≤ 0xFFFF) ∧
    readLiteral (quote controls).toList = some (controls, []) ∧
    ∀ other : String, quote controls = quote other → controls = other := by
  have hplane : ∀ c ∈ controls.toList, c.toNat ≤ 0xFFFF := by simp [controls]
  obtain ⟨hread, hsame⟩ := readLiteral_quote_iff controls
  refine ⟨hplane, hread.mpr hplane, fun other heq => (hsame other heq).resolve_right ?_⟩
  rintro ⟨c, hc, d, -, ⟨hlarge, -⟩ | ⟨hlarge, hbegins⟩⟩
  · exact absurd (hplane c hc) (Nat.not_le_of_lt hlarge)
  · have hle := hplane c hc
    omega

/-- A character beyond the first plane is not read from its literal, and two different texts have
the same one. -/
theorem readLiteral_quote_astral :
    readLiteral (quote "😀").toList = some ("ὠ0", []) ∧
      quote "𐀀0" = quote (String.singleton (Char.ofNat 0x100000)) ∧
      "𐀀0" ≠ String.singleton (Char.ofNat 0x100000) := by
  decide +kernel

end Arborist.Query
