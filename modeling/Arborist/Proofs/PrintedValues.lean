import Arborist.Proofs.Legibility
import Arborist.Query.Sharing
import Mathlib

/-!
# Printed values and types

The forms that can stand inside a definition, and which of them are well formed: names and numbers
follow the grammar of the query language, enum values are none of the words with a meaning of their
own, and texts stay on the first plane. Values that are well formed are legible (`Value.legible`),
and so are types (`TypeRef.print_cancel`), arguments and directives.

A value is told by its first character. What begins with a letter, a digit or a sign is a word
(`Value.word?`), and the word tells the value (`Value.ofWord`); all else begins with a character
that no other form begins with.
-/

namespace Arborist.Query

/-! ### Well-formed texts -/

/-- The characters that a name may begin with. -/
def isNameStart (c : Char) : Bool :=
  c.isAlpha || c = '_'

/-- Names: letters, digits and underscores, with no digit in front. -/
def isName (text : String) : Bool :=
  match text.toList with
  | [] => false
  | c :: cs => isNameStart c && cs.all fun c => isNameStart c || c.isDigit

/-- Digits without a zero in front, unless it is the only one. -/
def isWhole : List Char → Bool
  | [] => false
  | ['0'] => true
  | c :: cs => c ≠ '0' && (c :: cs).all Char.isDigit

/-- Integers: digits with an optional minus sign. -/
def isInteger : List Char → Bool
  | '-' :: cs => isWhole cs
  | cs => isWhole cs

/-- Digits, at least one. -/
def isDigits (cs : List Char) : Bool :=
  !cs.isEmpty && cs.all Char.isDigit

/-- A point and digits. -/
def isFraction : List Char → Bool
  | '.' :: cs => isDigits cs
  | _ => false

/-- Whether a character begins an exponent. -/
def isExponentLetter (c : Char) : Bool :=
  c = 'e' || c = 'E'

/-- The letter of an exponent, an optional sign, and digits. -/
def isExponent : List Char → Bool
  | c :: '+' :: cs => isExponentLetter c && isDigits cs
  | c :: '-' :: cs => isExponentLetter c && isDigits cs
  | c :: cs => isExponentLetter c && isDigits cs
  | [] => false

/-- Whether a character ends the integer part of a float. -/
def endsInteger (c : Char) : Bool :=
  c = '.' || isExponentLetter c

/-- Floats: an integer with a fraction, an exponent or both. -/
def isFloat (cs : List Char) : Bool :=
  let rest := cs.dropWhile fun c => !endsInteger c
  let fraction := rest.takeWhile fun c => !isExponentLetter c
  let exponent := rest.dropWhile fun c => !isExponentLetter c
  isInteger (cs.takeWhile fun c => !endsInteger c) && !rest.isEmpty &&
    (fraction.isEmpty || isFraction fraction) && (exponent.isEmpty || isExponent exponent)

namespace Value

mutual

/-- Values that are **well formed**. -/
def wellFormed : Value → Bool
  | .null => true
  | .var name => isName name
  | .str text => text.toList.all fun c => c.toNat ≤ 0xFFFF
  | .float text => isFloat text.toList
  | .int text => isInteger text.toList
  | .bool _ => true
  | .enum name => isName name && !(["true", "false", "null"].contains name)
  | .list items => wellFormedItems items
  | .object fields => wellFormedFields fields
termination_by structural value => value

/-- Whether all values of a list are well formed. -/
def wellFormedItems : List Value → Bool
  | [] => true
  | value :: rest => value.wellFormed && wellFormedItems rest
termination_by structural items => items

/-- Whether all names and values of an object are well formed. -/
def wellFormedFields : List (String × Value) → Bool
  | [] => true
  | (name, value) :: rest => isName name && value.wellFormed && wellFormedFields rest
termination_by structural fields => fields

end

end Value

/-- Types whose names are well formed. -/
def TypeRef.wellFormed : TypeRef → Bool
  | .named name => isName name
  | .list inner => inner.wellFormed
  | .nonNull inner => inner.wellFormed

/-- Arguments that are well formed. -/
def Argument.wellFormed (a : Argument) : Bool :=
  isName a.name && a.value.wellFormed

/-- Directives that are well formed. -/
def Directive.wellFormed (d : Directive) : Bool :=
  isName d.name && d.arguments.items.all Argument.wellFormed

/-! ### Names and numbers as words -/

theorem isWordChar_of_nameStart {c : Char} (h : isNameStart c = true) : isWordChar c = true := by
  simp only [isNameStart, Bool.or_eq_true, decide_eq_true_eq] at h
  obtain h | rfl := h
  · simp [isWordChar, Char.isAlphanum, h]
  · rfl

theorem isWordChar_of_digit {c : Char} (h : c.isDigit = true) : isWordChar c = true := by
  simp [isWordChar, Char.isAlphanum, h]

theorem not_nameStart_of_digit {c : Char} (h : c.isDigit = true) : isNameStart c = false := by
  have hc : c ≠ '_' := by
    rintro rfl
    exact absurd h (by decide)
  simp only [Char.isDigit, ge_iff_le, Bool.and_eq_true, decide_eq_true_eq,
    UInt32.le_iff_toNat_le] at h
  simp only [isNameStart, Char.isAlpha, Char.isUpper, Char.isLower, hc, decide_false,
    Bool.or_false, UInt32.le_iff_toNat_le]
  grind

theorem name_cons {name : String} (h : isName name = true) :
    ∃ c t, name.toList = c :: t ∧ isNameStart c = true := by
  rw [isName] at h
  cases hname : name.toList with
  | nil => simp [hname] at h
  | cons c t =>
    simp only [hname, Bool.and_eq_true] at h
    exact ⟨c, t, rfl, h.1⟩

theorem isWord_of_isName {name : String} (h : isName name = true) : IsWord name.toList := by
  rw [isName] at h
  split at h
  · cases h
  · rename_i c t hname
    simp only [Bool.and_eq_true, List.all_eq_true, Bool.or_eq_true] at h
    rw [hname]
    refine ⟨by simp, List.forall_mem_cons.mpr ⟨isWordChar_of_nameStart h.1, ?_⟩⟩
    exact fun x hx => (h.2 x hx).elim isWordChar_of_nameStart isWordChar_of_digit

/-- **Names** are legible before whatever breaks a word. -/
theorem name_cancel {a b : String} (ha : isName a = true) (hb : isName b = true)
    {r s : List Char} (hr : Breaks r) (hs : Breaks s) (heq : a.toList ++ r = b.toList ++ s) :
    a = b ∧ r = s := by
  obtain ⟨hnames, hrest⟩ := (isWord_of_isName ha).cancel (isWord_of_isName hb) hr hs heq
  exact ⟨String.toList_inj.mp hnames, hrest⟩

theorem isWhole_chars {cs : List Char} (h : isWhole cs = true) :
    cs ≠ [] ∧ ∀ c ∈ cs, c.isDigit = true := by
  unfold isWhole at h
  split at h
  · cases h
  · exact ⟨by simp, List.forall_mem_singleton.mpr rfl⟩
  · simp only [Bool.and_eq_true, List.all_eq_true] at h
    exact ⟨by simp, h.2⟩

theorem isInteger_chars {cs : List Char} (h : isInteger cs = true) :
    cs ≠ [] ∧ ∀ c ∈ cs, c = '-' ∨ c.isDigit = true := by
  unfold isInteger at h
  split at h
  · exact ⟨by simp, List.forall_mem_cons.mpr
      ⟨.inl rfl, fun c hc => .inr ((isWhole_chars h).2 c hc)⟩⟩
  · exact ⟨(isWhole_chars h).1, fun c hc => .inr ((isWhole_chars h).2 c hc)⟩

theorem isDigits_chars {cs : List Char} (h : isDigits cs = true) :
    ∀ c ∈ cs, isWordChar c = true := by
  simp only [isDigits, Bool.and_eq_true, List.all_eq_true] at h
  exact fun c hc => isWordChar_of_digit (h.2 c hc)

theorem isFraction_chars {cs : List Char} (h : isFraction cs = true) :
    ∀ c ∈ cs, isWordChar c = true := by
  unfold isFraction at h
  split at h
  · exact List.forall_mem_cons.mpr ⟨rfl, isDigits_chars h⟩
  · cases h

theorem isWordChar_of_exponentLetter {c : Char} (h : isExponentLetter c = true) :
    isWordChar c = true := by
  simp only [isExponentLetter, Bool.or_eq_true, decide_eq_true_eq] at h
  obtain rfl | rfl := h <;> rfl

theorem isExponent_chars {cs : List Char} (h : isExponent cs = true) :
    ∀ c ∈ cs, isWordChar c = true := by
  unfold isExponent at h
  split at h
  case h_4 => cases h
  all_goals
    rw [Bool.and_eq_true] at h
    simp only [List.forall_mem_cons]
  case h_1 | h_2 => exact ⟨isWordChar_of_exponentLetter h.1, rfl, isDigits_chars h.2⟩
  case h_3 => exact ⟨isWordChar_of_exponentLetter h.1, isDigits_chars h.2⟩

/-- A float is an integer that goes on with a fraction or an exponent, in characters of words. -/
theorem isFloat_parts {cs : List Char} (h : isFloat cs = true) :
    ∃ whole c t, cs = whole ++ c :: t ∧ isInteger whole = true ∧ endsInteger c = true ∧
      ∀ x ∈ c :: t, isWordChar x = true := by
  simp only [isFloat, Bool.and_eq_true, Bool.or_eq_true, Bool.not_eq_true', List.isEmpty_iff,
    List.isEmpty_eq_false_iff] at h
  obtain ⟨⟨⟨hwhole, hne⟩, hfraction⟩, hexponent⟩ := h
  set rest := cs.dropWhile fun c => !endsInteger c with hrest
  obtain ⟨c, t, hc⟩ := List.exists_cons_of_ne_nil hne
  refine ⟨_, c, t, ?_, hwhole, ?_, ?_⟩
  · rw [← hc, hrest, List.takeWhile_append_dropWhile]
  · have hhead := List.head_dropWhile_not (fun c => !endsInteger c) hne
    simpa [← hrest, hc] using hhead
  · have hsplit := List.takeWhile_append_dropWhile (p := fun c => !isExponentLetter c) (l := rest)
    rw [← hc, ← hsplit, List.forall_mem_append]
    constructor
    · obtain hnone | hsome := hfraction
      · simp [hnone]
      · exact isFraction_chars hsome
    · obtain hnone | hsome := hexponent
      · simp [hnone]
      · exact isExponent_chars hsome

/-- Numbers are words that don't begin like a name. -/
theorem number_cons {cs : List Char} (h : isInteger cs = true ∨ isFloat cs = true) :
    IsWord cs ∧ ∃ c t, cs = c :: t ∧ isNameStart c = false := by
  have hsign : ∀ c : Char, c = '-' ∨ c.isDigit = true →
      isNameStart c = false ∧ isWordChar c = true := by
    rintro c (rfl | hdigit)
    · exact ⟨rfl, rfl⟩
    · exact ⟨not_nameStart_of_digit hdigit, isWordChar_of_digit hdigit⟩
  obtain ⟨whole, rest, rfl, hwhole, hrest⟩ : ∃ whole rest, cs = whole ++ rest ∧
      isInteger whole = true ∧ ∀ x ∈ rest, isWordChar x = true := by
    obtain h | h := h
    · exact ⟨cs, [], by simp, h, by simp⟩
    · obtain ⟨whole, c, t, hcs, hwhole, -, hrest⟩ := isFloat_parts h
      exact ⟨whole, c :: t, hcs, hwhole, hrest⟩
  obtain ⟨hne, hchars⟩ := isInteger_chars hwhole
  obtain ⟨c, t, rfl⟩ := List.exists_cons_of_ne_nil hne
  refine ⟨⟨by simp, ?_⟩, c, t ++ rest, rfl, (hsign c (hchars c List.mem_cons_self)).1⟩
  exact List.forall_mem_append.mpr ⟨fun x hx => (hsign x (hchars x hx)).2, hrest⟩

theorem not_isName_of_number {text : String}
    (h : isInteger text.toList = true ∨ isFloat text.toList = true) : isName text = false := by
  obtain ⟨-, c, t, hcs, hc⟩ := number_cons h
  simp [isName, hcs, hc]

theorem not_isInteger_of_isFloat {cs : List Char} (h : isFloat cs = true) :
    isInteger cs = false := by
  obtain ⟨whole, c, t, rfl, -, hc, -⟩ := isFloat_parts h
  by_contra hint
  obtain hminus | hdigit := (isInteger_chars (by simpa using hint)).2 c (by simp)
  · rw [hminus] at hc
    exact absurd hc (by decide)
  · simp only [endsInteger, isExponentLetter, Bool.or_eq_true, decide_eq_true_eq] at hc
    obtain rfl | rfl | rfl := hc <;> exact absurd hdigit (by decide)

/-! ### Values -/

namespace Value

/-- The value as a word, if it is printed as one. -/
def word? : Value → Option String
  | .null => some "null"
  | .float text => some text
  | .int text => some text
  | .bool value => some (if value then "true" else "false")
  | .enum name => some name
  | _ => none

/-- The value that a word stands for. -/
def ofWord (word : String) : Value :=
  if isName word then
    if word = "null" then .null
    else if word = "true" then .bool true
    else if word = "false" then .bool false
    else .enum word
  else if isInteger word.toList then .int word
  else .float word

theorem print_of_word? {a : Value} {word : String} (h : a.word? = some word) :
    a.print = word := by
  cases a with
  | bool value => cases value <;> exact Option.some.inj h
  | null | float | int | enum => exact Option.some.inj h
  | _ => cases h

theorem eq_ofWord {a : Value} (ha : a.wellFormed = true) {word : String}
    (h : a.word? = some word) : a = ofWord word := by
  cases a with
  | null =>
    cases h
    rfl
  | bool value =>
    cases h
    cases value <;> rfl
  | enum name =>
    cases h
    simp only [wellFormed, Bool.and_eq_true, Bool.not_eq_true', List.contains_eq_mem,
      decide_eq_false_iff_not, List.mem_cons, List.not_mem_nil, or_false, not_or] at ha
    simp [ofWord, ha]
  | int text =>
    cases h
    rw [wellFormed] at ha
    simp [ofWord, not_isName_of_number (.inl ha), ha]
  | float text =>
    cases h
    rw [wellFormed] at ha
    simp [ofWord, not_isName_of_number (.inr ha), not_isInteger_of_isFloat ha]
  | _ => cases h

theorem isWord_of_word? {a : Value} (ha : a.wellFormed = true) {word : String}
    (h : a.word? = some word) : IsWord word.toList := by
  cases a with
  | null =>
    cases h
    exact isWord_of_isName (by decide)
  | bool value =>
    cases h
    cases value <;> exact isWord_of_isName (by decide)
  | enum name =>
    cases h
    simp only [wellFormed, Bool.and_eq_true] at ha
    exact isWord_of_isName ha.1
  | int text =>
    cases h
    exact (number_cons (.inl ha)).1
  | float text =>
    cases h
    exact (number_cons (.inr ha)).1
  | _ => cases h

theorem toList_print_var (name : String) (r : List Char) :
    (var name).print.toList ++ r = '$' :: (name.toList ++ r) := by
  simp [print]

theorem toList_print_str (text : String) (r : List Char) :
    (str text).print.toList ++ r = '"' :: ((quote text).toList.tail ++ r) := by
  simp [print, quote, quoteChars]

theorem toList_print_list (items : List Value) (r : List Char) :
    (list items).print.toList ++ r =
      '[' :: ((", ".intercalate (printList items)).toList ++ ("]".toList ++ r)) := by
  simp [print]

theorem toList_print_object (fields : List (String × Value)) (r : List Char) :
    (object fields).print.toList ++ r =
      '\x7b' :: ((", ".intercalate (printFields fields)).toList ++ ("\x7d".toList ++ r)) := by
  simp [print]

/-- What isn't printed as a word breaks off a word. -/
theorem breaks_print {a : Value} (h : a.word? = none) (r : List Char) :
    Breaks (a.print.toList ++ r) := by
  cases a with
  | var name => rw [toList_print_var, breaks_cons]; rfl
  | str text => rw [toList_print_str, breaks_cons]; rfl
  | list items => rw [toList_print_list, breaks_cons]; rfl
  | object fields => rw [toList_print_object, breaks_cons]; rfl
  | _ => cases h

/-- The script of values. -/
def script : Script Value Value where
  write := print
  see := id
  Sound a := a.wellFormed = true
  Ends := Breaks

theorem legible_of_word? {a : Value} (ha : a.wellFormed = true) {word : String}
    (hword : a.word? = some word) : script.Legible a := by
  intro b r s hb hr hs heq
  have hisWord := isWord_of_word? ha hword
  simp only [script, print_of_word? hword] at heq
  cases hword' : b.word? with
  | none => exact absurd (heq ▸ breaks_print hword' s) (hisWord.not_breaks r)
  | some word' =>
    rw [print_of_word? hword'] at heq
    obtain ⟨hwords, hrest⟩ := hisWord.cancel (isWord_of_word? hb hword') hr hs heq
    refine ⟨?_, hrest⟩
    show a = b
    rw [eq_ofWord ha hword, eq_ofWord hb hword', String.toList_inj.mp hwords]

/-- Against a value that isn't printed as a word there is no word. -/
theorem word?_eq_none {a : Value} (ha : a.wellFormed = true) {c : Char} {t r : List Char}
    (hc : isWordChar c = false) (heq : c :: t = a.print.toList ++ r) : a.word? = none := by
  cases hword : a.word? with
  | none => rfl
  | some word =>
    rw [print_of_word? hword] at heq
    exact absurd (heq ▸ (breaks_cons c t).mpr hc) ((isWord_of_word? ha hword).not_breaks r)

/-- The script of named values. -/
def labelled : Script (String × Value) (String × Value) where
  write field := field.1 ++ ": " ++ field.2.print
  see := id
  Sound field := isName field.1 = true ∧ field.2.wellFormed = true
  Ends := Breaks

theorem labelled_legible {name : String} {a : Value} (hname : isName name = true)
    (ha : script.Legible a) : labelled.Legible (name, a) := by
  rintro ⟨name', b⟩ r s ⟨hname', hb⟩ hr hs heq
  simp only [labelled, String.toList_append, List.append_assoc] at heq
  obtain ⟨rfl, hrest⟩ := name_cancel hname hname' (by simp [isWordChar]) (by simp [isWordChar]) heq
  obtain ⟨hvalues, hend⟩ := ha b r s hb hr hs (List.append_cancel_left hrest)
  exact ⟨congrArg (Prod.mk name) hvalues, hend⟩

theorem printList_eq_map (items : List Value) : printList items = items.map script.write := by
  induction items with
  | nil => rfl
  | cons a items ih => rw [printList, ih, List.map_cons]; rfl

theorem printFields_eq_map (fields : List (String × Value)) :
    printFields fields = fields.map labelled.write := by
  induction fields with
  | nil => rfl
  | cons field fields ih => rw [printFields, ih, List.map_cons]; rfl

theorem separates_items : script.Separates ", " (Begins "]") :=
  Script.separates_commas rfl (by decide) (by
    rintro x t (rfl | rfl) <;> exact (breaks_cons _ t).mpr rfl)

theorem separates_fields : labelled.Separates ", " (Begins "\x7d") :=
  Script.separates_commas rfl (by decide) (by
    rintro x t (rfl | rfl) <;> exact (breaks_cons _ t).mpr rfl)

theorem items_open (a : Value) (t r : List Char) (ha : script.Sound a) (hr : Begins "]" r) :
    (script.write a).toList ++ t ≠ r := by
  obtain ⟨r, rfl⟩ := hr
  intro heq
  have hword := word?_eq_none (c := ']') (t := r) ha rfl heq.symm
  cases a with
  | var | str | list | object =>
    simp [script, toList_print_var, toList_print_str, toList_print_list,
      toList_print_object] at heq
  | _ => cases hword

theorem fields_open (field : String × Value) (t r : List Char) (h : labelled.Sound field)
    (hr : Begins "\x7d" r) : (labelled.write field).toList ++ t ≠ r := by
  obtain ⟨r, rfl⟩ := hr
  intro heq
  obtain ⟨c, u, hname, hc⟩ := name_cons h.1
  simp only [labelled, String.toList_append, hname, List.cons_append] at heq
  rw [(List.cons.inj heq).1] at hc
  exact absurd hc (by decide)

theorem sound_items {items : List Value} (h : wellFormedItems items = true) :
    ∀ a ∈ items, script.Sound a := by
  induction items with
  | nil => nofun
  | cons a items ih =>
    rw [wellFormedItems, Bool.and_eq_true] at h
    exact List.forall_mem_cons.mpr ⟨h.1, ih h.2⟩

theorem sound_fields {fields : List (String × Value)} (h : wellFormedFields fields = true) :
    ∀ field ∈ fields, labelled.Sound field := by
  induction fields with
  | nil => nofun
  | cons field fields ih =>
    simp only [wellFormedFields, Bool.and_eq_true] at h
    exact List.forall_mem_cons.mpr ⟨h.1, ih h.2⟩

mutual

/-- **Values** that are well formed are legible before whatever breaks a word. -/
theorem legible : ∀ a : Value, a.wellFormed = true → script.Legible a
  | .null, ha => legible_of_word? ha rfl
  | .float _, ha => legible_of_word? ha rfl
  | .int _, ha => legible_of_word? ha rfl
  | .bool _, ha => legible_of_word? ha rfl
  | .enum _, ha => legible_of_word? ha rfl
  -- The first character rules out words and all forms but one.
  | .var name, ha => by
    intro b r s hb hr hs heq
    simp only [script, toList_print_var] at heq
    have hword := word?_eq_none hb rfl heq
    cases b with
    | var name' =>
      rw [toList_print_var] at heq
      obtain ⟨rfl, hrest⟩ := name_cancel ha hb hr hs (List.cons.inj heq).2
      exact ⟨rfl, hrest⟩
    | str | list | object =>
      simp [toList_print_str, toList_print_list, toList_print_object] at heq
    | _ => cases hword
  | .str text, ha => by
    intro b r s hb hr hs heq
    have hword := word?_eq_none hb rfl ((toList_print_str text r).symm.trans heq)
    simp only [script] at heq
    cases b with
    | str text' =>
      simp only [script, wellFormed, List.all_eq_true] at ha hb
      obtain ⟨rfl, hrest⟩ := quote_cancel (fun c hc => of_decide_eq_true (ha c hc))
        (fun c hc => of_decide_eq_true (hb c hc)) heq
      exact ⟨rfl, hrest⟩
    | var | list | object =>
      simp [toList_print_str, toList_print_var, toList_print_list, toList_print_object] at heq
    | _ => cases hword
  | .list items, ha => by
    intro b r s hb hr hs heq
    simp only [script, toList_print_list] at heq
    have hword := word?_eq_none hb rfl heq
    cases b with
    | list items' =>
      rw [toList_print_list, printList_eq_map, printList_eq_map] at heq
      obtain ⟨hitems, hrest⟩ := separates_items.listed items_open (legible_items items ha)
        (sound_items hb) ⟨r, rfl⟩ ⟨s, rfl⟩ (List.cons.inj heq).2
      exact ⟨congrArg list (by simpa [script] using hitems), List.append_cancel_left hrest⟩
    | var | str | object =>
      simp [toList_print_str, toList_print_var, toList_print_object] at heq
    | _ => cases hword
  | .object fields, ha => by
    intro b r s hb hr hs heq
    simp only [script, toList_print_object] at heq
    have hword := word?_eq_none hb rfl heq
    cases b with
    | object fields' =>
      rw [toList_print_object, printFields_eq_map, printFields_eq_map] at heq
      obtain ⟨hfields, hrest⟩ := separates_fields.listed fields_open (legible_fields fields ha)
        (sound_fields hb) ⟨r, rfl⟩ ⟨s, rfl⟩ (List.cons.inj heq).2
      exact ⟨congrArg object (by simpa [labelled] using hfields), List.append_cancel_left hrest⟩
    | var | str | list =>
      simp [toList_print_str, toList_print_var, toList_print_list] at heq
    | _ => cases hword

theorem legible_items : ∀ items : List Value, wellFormedItems items = true →
    ∀ a ∈ items, script.Sound a ∧ script.Legible a
  | [], _ => nofun
  | a :: items, h => by
    rw [wellFormedItems, Bool.and_eq_true] at h
    exact List.forall_mem_cons.mpr ⟨⟨h.1, legible a h.1⟩, legible_items items h.2⟩

theorem legible_fields : ∀ fields : List (String × Value), wellFormedFields fields = true →
    ∀ field ∈ fields, labelled.Sound field ∧ labelled.Legible field
  | [], _ => nofun
  | (name, a) :: fields, h => by
    simp only [wellFormedFields, Bool.and_eq_true] at h
    obtain ⟨⟨hname, ha⟩, hfields⟩ := h
    exact List.forall_mem_cons.mpr
      ⟨⟨⟨hname, ha⟩, labelled_legible hname (legible a ha)⟩, legible_fields fields hfields⟩

end

-- An enum value that is one of the words with a meaning of their own is not told from that word.
example : (Value.enum "true").print = (Value.bool true).print := rfl

end Value

/-! ### Types -/

namespace TypeRef

theorem toList_print_list (t : TypeRef) (r : List Char) :
    (list t).print.toList ++ r = '[' :: (t.print.toList ++ ']' :: r) := by
  simp [print]

theorem toList_print_nonNull (t : TypeRef) (r : List Char) :
    (nonNull t).print.toList ++ r = t.print.toList ++ '!' :: r := by
  simp [print]

theorem bangs_cancel {k l : Nat} {r s : List Char} (hr : ∀ t, r ≠ '!' :: t)
    (hs : ∀ t, s ≠ '!' :: t) (heq : List.replicate k '!' ++ r = List.replicate l '!' ++ s) :
    k = l ∧ r = s := by
  induction k generalizing l with
  | zero =>
    cases l with
    | zero => exact ⟨rfl, heq⟩
    | succ l => exact absurd heq (hr _)
  | succ k ih =>
    cases l with
    | zero => exact absurd heq.symm (hs _)
    | succ l =>
      obtain ⟨hkl, hrest⟩ := ih (List.cons.inj heq).2
      exact ⟨congrArg _ hkl, hrest⟩

theorem breaks_bangs (k : Nat) {r : List Char} (hr : Breaks r) :
    Breaks (List.replicate k '!' ++ r) := by
  cases k with
  | zero => exact hr
  | succ k => exact (breaks_cons _ _).mpr rfl

/-- Types with exclamation marks behind are told apart as if the marks were part of the types. The
induction moves the marks of both types into the counts, and compares the counts at the end. -/
theorem marked_cancel : ∀ {t u : TypeRef} {k l : Nat} {r s : List Char}, t.wellFormed = true →
    u.wellFormed = true → Breaks r → (∀ x, r ≠ '!' :: x) → Breaks s → (∀ x, s ≠ '!' :: x) →
    t.print.toList ++ (List.replicate k '!' ++ r) = u.print.toList ++ (List.replicate l '!' ++ s) →
    nonNull^[k] t = nonNull^[l] u ∧ r = s
  | .nonNull t, u, k, l, r, s, ht, hu, hr, hr', hs, hs', heq => by
    rw [toList_print_nonNull] at heq
    exact marked_cancel (t := t) (k := k + 1) ht hu hr hr' hs hs' heq
  | t, .nonNull u, k, l, r, s, ht, hu, hr, hr', hs, hs', heq => by
    rw [toList_print_nonNull] at heq
    exact marked_cancel (u := u) (l := l + 1) ht hu hr hr' hs hs' heq
  | .named m, .named n, k, l, r, s, ht, hu, hr, hr', hs, hs', heq => by
    obtain ⟨rfl, hmarks⟩ := name_cancel ht hu (breaks_bangs k hr) (breaks_bangs l hs) heq
    obtain ⟨rfl, hrest⟩ := bangs_cancel hr' hs' hmarks
    exact ⟨rfl, hrest⟩
  | .list t, .list u, k, l, r, s, ht, hu, hr, hr', hs, hs', heq => by
    rw [toList_print_list, toList_print_list] at heq
    have hclose : ∀ r : List Char, Breaks (']' :: r) ∧ ∀ x, ']' :: r ≠ '!' :: x :=
      fun r => ⟨(breaks_cons _ _).mpr rfl, by simp⟩
    obtain ⟨htu, hmarks⟩ := marked_cancel (t := t) (u := u) (k := 0) (l := 0) ht hu (hclose _).1
      (hclose _).2 (hclose _).1 (hclose _).2 (List.cons.inj heq).2
    obtain ⟨rfl, hrest⟩ := bangs_cancel hr' hs' (List.cons.inj hmarks).2
    exact ⟨congrArg _ (congrArg list htu), hrest⟩
  | .named m, .list u, k, l, r, s, ht, hu, hr, hr', hs, hs', heq => by
    rw [toList_print_list] at heq
    exact absurd (heq ▸ (breaks_cons _ _).mpr rfl) ((isWord_of_isName ht).not_breaks _)
  | .list t, .named n, k, l, r, s, ht, hu, hr, hr', hs, hs', heq => by
    rw [toList_print_list] at heq
    exact absurd (heq ▸ (breaks_cons _ _).mpr rfl) ((isWord_of_isName hu).not_breaks _)

/-- **Types** are legible before whatever breaks a word and isn't an exclamation mark. -/
theorem print_cancel {t u : TypeRef} (ht : t.wellFormed = true) (hu : u.wellFormed = true)
    {r s : List Char} (hr : Breaks r ∧ ∀ x, r ≠ '!' :: x) (hs : Breaks s ∧ ∀ x, s ≠ '!' :: x)
    (heq : t.print.toList ++ r = u.print.toList ++ s) : t = u ∧ r = s :=
  marked_cancel (k := 0) (l := 0) ht hu hr.1 hr.2 hs.1 hs.2 heq

end TypeRef

/-! ### Arguments -/

/-- The script of arguments. -/
def Argument.script : Script Argument Argument where
  write := print
  see := id
  Sound a := a.wellFormed = true
  Ends := Breaks

theorem Argument.legible {a : Argument} (ha : a.wellFormed = true) : script.Legible a := by
  intro b r s hb hr hs heq
  simp only [script, wellFormed, Bool.and_eq_true] at ha hb
  obtain ⟨hsame, hrest⟩ :=
    Value.labelled_legible ha.1 (Value.legible a.value ha.2) (b.name, b.value) r s hb hr hs heq
  obtain ⟨hname, hvalue⟩ := Prod.mk.inj hsame
  refine ⟨?_, hrest⟩
  show a = b
  cases a
  cases b
  exact congrArg₂ Argument.mk hname hvalue

theorem Argument.separates : script.Separates ", " (Begins ")") :=
  Script.separates_commas rfl (by decide) (by
    rintro x t (rfl | rfl) <;> exact (breaks_cons _ t).mpr rfl)

/-- **Lists of arguments** are legible before anything but a bracket. -/
theorem printArguments_cancel {a b : Block Argument}
    (ha : a.items.all Argument.wellFormed = true) (hb : b.items.all Argument.wellFormed = true)
    {r s : List Char} (hr : ¬ Begins "(" r) (hs : ¬ Begins "(" s)
    (heq : (printArguments a).toList ++ r = (printArguments b).toList ++ s) :
    a.items = b.items ∧ r = s := by
  rw [List.all_eq_true] at ha hb
  obtain ⟨hitems, hrest⟩ := Argument.separates.enclosed
    (fun x hx => ⟨ha x hx, Argument.legible (ha x hx)⟩) b.items r s hb hr hs heq
  exact ⟨by simpa [Script.enclosed, Argument.script] using hitems, hrest⟩

/-! ### Directives -/

/-- The script of directives. -/
def Directive.script : Script Directive Directive where
  write := print
  see := erase
  Sound d := d.wellFormed = true
  Ends r := Breaks r ∧ ¬ Begins "(" r

/-- Texts that don't go on with a list of arguments or with a directive. -/
structure Concludes (r : List Char) : Prop where
  breaks : Breaks r
  arguments : ¬ Begins "(" r
  directives : ¬ Begins " @" r

theorem breaks_printArguments (b : Block Argument) {r : List Char} (hr : Breaks r) :
    Breaks ((printArguments b).toList ++ r) := by
  cases h : b.items with
  | nil => simpa [printArguments, enclosed, h] using hr
  | cons a items => simp [printArguments, enclosed, h, isWordChar]

theorem Directive.legible {d : Directive} (hd : d.wellFormed = true) : script.Legible d := by
  intro e r s he hr hs heq
  simp only [script, wellFormed, Bool.and_eq_true] at hd he
  simp only [script, print, String.toList_append, List.append_assoc,
    List.append_cancel_left_eq] at heq
  obtain ⟨hname, harguments⟩ := name_cancel hd.1 he.1 (breaks_printArguments _ hr.1)
    (breaks_printArguments _ hs.1) heq
  obtain ⟨hitems, hrest⟩ := printArguments_cancel hd.2 he.2 hr.2 hs.2 harguments
  refine ⟨?_, hrest⟩
  show d.erase = e.erase
  simp [erase, Block.erase, hname, hitems]

theorem Directive.separates : script.Separates " " Concludes where
  next d t _ := ⟨(breaks_cons _ _).mpr rfl, by rintro ⟨u, hu⟩; simp at hu⟩
  last r hr := ⟨hr.breaks, hr.arguments⟩
  apart d t r _ hr heq := by
    refine hr.directives ⟨d.name.toList ++ ((printArguments d.arguments).toList ++ t), ?_⟩
    simp [← heq, script, print]

theorem toList_printDirectives (b : Block Directive) :
    (printDirectives b).toList = Directive.script.run " " b.items := by
  simp [printDirectives, Script.run, Directive.script, String.toList_join, List.flatMap_map]

/-- **Directives** are legible before whatever doesn't go on with arguments or directives. -/
theorem printDirectives_cancel {a b : Block Directive}
    (ha : a.items.all Directive.wellFormed = true) (hb : b.items.all Directive.wellFormed = true)
    {r s : List Char} (hr : Concludes r) (hs : Concludes s)
    (heq : (printDirectives a).toList ++ r = (printDirectives b).toList ++ s) :
    eraseDirectives a = eraseDirectives b ∧ r = s := by
  rw [toList_printDirectives, toList_printDirectives] at heq
  rw [List.all_eq_true] at ha hb
  obtain ⟨hitems, hrest⟩ := Directive.separates.series
    (fun d hd => ⟨ha d hd, Directive.legible (ha d hd)⟩) hb hr hs heq
  exact ⟨congrArg (Block.mk 0) hitems, hrest⟩

end Arborist.Query
