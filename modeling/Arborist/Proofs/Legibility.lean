import Arborist.Query.Print
import Mathlib

/-!
# Legible scripts

A printed form is **legible** if it tells what was printed and where it ends: if two texts that are
the same begin with printed forms and go on in a way that is allowed there, then the printed things
are the same and so is the rest (`Script.Legible`). What may follow matters, because many forms have
no closing bracket of their own: a name goes on as long as there are letters, and a field goes on as
long as there are directives.

* `Script.Separates` collects what a separator must be like for a list to be legible;
  `Script.Separates.series` is the induction along the list, and `Script.Separates.listed` and
  `Script.Separates.enclosed` are what it means for the lists of a document.
* `IsWord.cancel`: words are legible before whatever breaks them.
* `quote_cancel`: string literals are legible before anything at all.
-/

namespace Arborist.Query

/-! ### Scripts -/

/-- The texts that begin in a certain way. -/
def Begins (start : String) (r : List Char) : Prop :=
  ∃ t, r = start.toList ++ t

/-- A **script**: how things are written, what counts of them, which of them may be written, and
what may follow when they are. -/
structure Script (α γ : Type) where
  write : α → String
  see : α → γ
  Sound : α → Prop
  Ends : List Char → Prop

namespace Script

variable {α γ : Type} {S : Script α γ}

/-- A thing whose written form is **legible**: whatever else begins the same text is the same thing,
and is followed by the same rest. -/
def Legible (S : Script α γ) (a : α) : Prop :=
  ∀ b r s, S.Sound b → S.Ends r → S.Ends s →
    (S.write a).toList ++ r = (S.write b).toList ++ s → S.see a = S.see b ∧ r = s

/-- What is asked of a separator for lists that stop before certain texts: another item or the end
of the list may follow an item, and the two are told apart. -/
structure Separates (S : Script α γ) (separator : String) (Stop : List Char → Prop) : Prop where
  next : ∀ a t, S.Sound a → S.Ends (separator.toList ++ ((S.write a).toList ++ t))
  last : ∀ r, Stop r → S.Ends r
  apart : ∀ a t r, S.Sound a → Stop r → separator.toList ++ ((S.write a).toList ++ t) ≠ r

/-- Items, each with the separator in front. -/
def run (S : Script α γ) (separator : String) (items : List α) : List Char :=
  items.flatMap fun a => separator.toList ++ (S.write a).toList

theorem run_cons (separator : String) (a : α) (items : List α) (r : List Char) :
    S.run separator (a :: items) ++ r =
      separator.toList ++ ((S.write a).toList ++ (S.run separator items ++ r)) := by
  simp [run]

theorem Separates.ends {separator : String} {Stop : List Char → Prop}
    (h : S.Separates separator Stop) {items : List α} (hitems : ∀ a ∈ items, S.Sound a)
    {r : List Char} (hr : Stop r) : S.Ends (S.run separator items ++ r) := by
  cases items with
  | nil => exact h.last r hr
  | cons a items =>
    rw [run_cons]
    exact h.next a _ (hitems a List.mem_cons_self)

/-- A **series** of items is legible up to where it stops. -/
theorem Separates.series {separator : String} {Stop : List Char → Prop}
    (h : S.Separates separator Stop) {as bs : List α} (has : ∀ a ∈ as, S.Sound a ∧ S.Legible a)
    (hbs : ∀ b ∈ bs, S.Sound b) {r s : List Char} (hr : Stop r) (hs : Stop s)
    (heq : S.run separator as ++ r = S.run separator bs ++ s) :
    as.map S.see = bs.map S.see ∧ r = s := by
  induction as generalizing bs with
  | nil =>
    cases bs with
    | nil => exact ⟨rfl, heq⟩
    | cons b bs =>
      rw [run_cons] at heq
      exact absurd heq.symm (h.apart b _ r (hbs b List.mem_cons_self) hr)
  | cons a as ih =>
    obtain ⟨⟨ha, hlegible⟩, has⟩ := List.forall_mem_cons.mp has
    cases bs with
    | nil =>
      rw [run_cons] at heq
      exact absurd heq (h.apart a _ s ha hs)
    | cons b bs =>
      obtain ⟨hb, hbs⟩ := List.forall_mem_cons.mp hbs
      rw [run_cons, run_cons, List.append_cancel_left_eq] at heq
      obtain ⟨hsee, hrest⟩ := hlegible b _ _ hb (h.ends (fun a ha => (has a ha).1) hr)
        (h.ends hbs hs) heq
      obtain ⟨hsees, hstop⟩ := ih has hbs hrest
      exact ⟨congrArg₂ List.cons hsee hsees, hstop⟩

/-! ### Lists -/

theorem toList_intercalate_cons (separator : String) (a : α) (items : List α) :
    (separator.intercalate (S.write a :: items.map S.write)).toList =
      (S.write a).toList ++ S.run separator items := by
  induction items generalizing a with
  | nil => simp [run]
  | cons b items ih =>
    rw [List.map_cons, String.toList_intercalate, List.map_cons, List.map_cons,
      List.intercalate_cons_cons, ← List.map_cons, ← String.toList_intercalate, ih]
    simp [run]

/-- Items with separators between them are legible up to where they stop, if there is an item at
all. -/
theorem Separates.listed_cons {separator : String} {Stop : List Char → Prop}
    (h : S.Separates separator Stop) {a b : α} {as bs : List α}
    (has : ∀ a' ∈ a :: as, S.Sound a' ∧ S.Legible a') (hbs : ∀ b' ∈ b :: bs, S.Sound b')
    {r s : List Char} (hr : Stop r) (hs : Stop s)
    (heq : (separator.intercalate ((a :: as).map S.write)).toList ++ r =
      (separator.intercalate ((b :: bs).map S.write)).toList ++ s) :
    (a :: as).map S.see = (b :: bs).map S.see ∧ r = s := by
  obtain ⟨⟨ha, hlegible⟩, has⟩ := List.forall_mem_cons.mp has
  obtain ⟨hb, hbs⟩ := List.forall_mem_cons.mp hbs
  rw [List.map_cons, List.map_cons, toList_intercalate_cons, toList_intercalate_cons,
    List.append_assoc, List.append_assoc] at heq
  obtain ⟨hsee, hrest⟩ := hlegible b _ _ hb
    (h.ends (fun a ha => (has a ha).1) hr) (h.ends hbs hs) heq
  obtain ⟨hsees, hstop⟩ := h.series has hbs hr hs hrest
  exact ⟨congrArg₂ List.cons hsee hsees, hstop⟩

/-- **Items with separators** between them are legible up to where they stop, if no item begins like
that. -/
theorem Separates.listed {separator : String} {Stop : List Char → Prop}
    (h : S.Separates separator Stop)
    (hne : ∀ a t r, S.Sound a → Stop r → (S.write a).toList ++ t ≠ r) {as bs : List α}
    (has : ∀ a ∈ as, S.Sound a ∧ S.Legible a) (hbs : ∀ b ∈ bs, S.Sound b) {r s : List Char}
    (hr : Stop r) (hs : Stop s)
    (heq : (separator.intercalate (as.map S.write)).toList ++ r =
      (separator.intercalate (bs.map S.write)).toList ++ s) :
    as.map S.see = bs.map S.see ∧ r = s := by
  cases as with
  | nil =>
    cases bs with
    | nil => exact ⟨rfl, List.append_cancel_left heq⟩
    | cons b bs =>
      rw [List.map_cons, toList_intercalate_cons, List.append_assoc] at heq
      exact absurd heq.symm (hne b _ r (hbs b List.mem_cons_self) hr)
  | cons a as =>
    cases bs with
    | nil =>
      rw [List.map_cons, toList_intercalate_cons, List.append_assoc] at heq
      exact absurd heq (hne a _ s (has a List.mem_cons_self).1 hs)
    | cons b bs => exact h.listed_cons has hbs hr hs heq

/-! ### Brackets -/

/-- The script of lists between brackets, where an empty list is not written at all. -/
def enclosed (S : Script α γ) (opening separator closing : String) :
    Script (List α) (List γ) where
  write items := Query.enclosed opening separator closing (items.map S.write)
  see := List.map S.see
  Sound items := ∀ a ∈ items, S.Sound a
  Ends r := ¬ Begins opening r

theorem toList_enclosed_cons (opening separator closing : String) (a : α) (items : List α)
    (r : List Char) :
    ((S.enclosed opening separator closing).write (a :: items)).toList ++ r = opening.toList ++
      ((separator.intercalate ((a :: items).map S.write)).toList ++ (closing.toList ++ r)) := by
  simp [enclosed, Query.enclosed]

/-- Lists in brackets that are both there are legible, whatever follows. -/
theorem Separates.enclosed_cons {opening separator closing : String}
    (h : S.Separates separator (Begins closing)) {a b : α} {as bs : List α}
    (has : ∀ a' ∈ a :: as, S.Sound a' ∧ S.Legible a') (hbs : ∀ b' ∈ b :: bs, S.Sound b')
    {r s : List Char}
    (heq : ((S.enclosed opening separator closing).write (a :: as)).toList ++ r =
      ((S.enclosed opening separator closing).write (b :: bs)).toList ++ s) :
    (a :: as).map S.see = (b :: bs).map S.see ∧ r = s := by
  rw [toList_enclosed_cons, toList_enclosed_cons, List.append_cancel_left_eq] at heq
  obtain ⟨hsees, hclosed⟩ := h.listed_cons has hbs ⟨r, rfl⟩ ⟨s, rfl⟩ heq
  exact ⟨hsees, List.append_cancel_left hclosed⟩

/-- **Lists in brackets** are legible before anything but an opening bracket. -/
theorem Separates.enclosed {opening separator closing : String}
    (h : S.Separates separator (Begins closing)) {as : List α}
    (has : ∀ a ∈ as, S.Sound a ∧ S.Legible a) :
    (S.enclosed opening separator closing).Legible as := by
  intro bs r s hbs hr hs heq
  cases as with
  | nil =>
    cases bs with
    | nil => exact ⟨rfl, heq⟩
    | cons b bs =>
      rw [toList_enclosed_cons] at heq
      exact absurd ⟨_, heq⟩ hr
  | cons a as =>
    cases bs with
    | nil =>
      rw [toList_enclosed_cons] at heq
      exact absurd ⟨_, heq.symm⟩ hs
    | cons b bs => exact h.enclosed_cons has hbs heq

end Script

/-! ### Words -/

/-- The characters of names and numbers. -/
def isWordChar (c : Char) : Bool :=
  c.isAlphanum || c = '_' || c = '-' || c = '+' || c = '.'

/-- Texts that **break** a word: they don't begin with a character of words. -/
def Breaks (r : List Char) : Prop :=
  ∀ c ∈ r.head?, isWordChar c = false

@[simp] theorem breaks_cons (c : Char) (r : List Char) :
    Breaks (c :: r) ↔ isWordChar c = false := by
  simp [Breaks]

/-- A **word**: characters of words, and at least one. -/
def IsWord (w : List Char) : Prop :=
  w ≠ [] ∧ ∀ c ∈ w, isWordChar c = true

theorem IsWord.not_breaks {w : List Char} (hw : IsWord w) (r : List Char) : ¬ Breaks (w ++ r) := by
  obtain ⟨hne, hchars⟩ := hw
  obtain ⟨c, t, rfl⟩ := List.exists_cons_of_ne_nil hne
  rw [List.cons_append, breaks_cons, hchars c List.mem_cons_self]
  nofun

theorem IsWord.takeWhile {w r : List Char} (hw : IsWord w) (hr : Breaks r) :
    (w ++ r).takeWhile isWordChar = w := by
  rw [List.takeWhile_append_of_pos hw.2]
  cases r with
  | nil => simp
  | cons c r =>
    rw [List.takeWhile_cons_of_neg (by simpa using hr), List.append_nil]

/-- **Words** that begin one text and are broken off there are the same. -/
theorem IsWord.cancel {w v r s : List Char} (hw : IsWord w) (hv : IsWord v) (hr : Breaks r)
    (hs : Breaks s) (heq : w ++ r = v ++ s) : w = v ∧ r = s := by
  have hwords : w = v := by rw [← hw.takeWhile hr, heq, hv.takeWhile hs]
  subst hwords
  exact ⟨rfl, List.append_cancel_left heq⟩

/-- Items that may be followed by a comma or by the closing bracket are separated by commas. -/
theorem Script.separates_commas {α γ : Type} {S : Script α γ} {closing : String} {c : Char}
    (hclosing : closing.toList = [c]) (hc : c ≠ ',')
    (hends : ∀ x t, x = ',' ∨ x = c → S.Ends (x :: t)) : S.Separates ", " (Begins closing) where
  next a t _ := hends ',' _ (.inl rfl)
  last := by
    rintro r ⟨t, rfl⟩
    rw [hclosing]
    exact hends c t (.inr rfl)
  apart := by
    rintro a t r - ⟨t', rfl⟩ heq
    rw [hclosing] at heq
    exact hc (List.cons.inj heq).1.symm

/-! ### String literals -/

/-- The letters of the short escapes, with the characters that they stand for. -/
def shortEscapes : List (Char × Char) :=
  [('r', '\r'), ('n', '\n'), ('t', '\t'), ('"', '"'), ('\\', '\\')]

/-- The three ways of writing a character of the first plane: as it is, by a short escape, or by its
number. -/
inductive Escapes (c : Char) : List Char → Prop where
  | plain (hquote : c ≠ '"') (hslash : c ≠ '\\') : Escapes c [c]
  | short {x : Char} (hx : (x, c) ∈ shortEscapes) : Escapes c ['\\', x]
  | numbered (hc : c.toNat < 32) : Escapes c ('\\' :: 'u' :: hexDigits c.toNat)

theorem escapes {c : Char} (hc : c.toNat ≤ 0xFFFF) : Escapes c (escapeChar c) := by
  rw [escapeChar]
  split_ifs with hr hn ht hquote hslash hplain
  · exact .short (by simp [hr, shortEscapes])
  · exact .short (by simp [hn, shortEscapes])
  · exact .short (by simp [ht, shortEscapes])
  · exact .short (by simp [hquote, shortEscapes])
  · exact .short (by simp [hslash, shortEscapes])
  · exact .plain hquote hslash
  · exact .numbered (by omega)

theorem shortEscapes_unique : ∀ e ∈ shortEscapes, ∀ e' ∈ shortEscapes, e.1 = e'.1 → e.2 = e'.2 := by
  decide

theorem shortEscapes_ne : ∀ e ∈ shortEscapes, e.1 ≠ 'u' := by
  decide

theorem length_hexDigits : ∀ n < 32, (hexDigits n).length = 4 := by
  decide

theorem hexDigits_inj : ∀ n < 32, ∀ m < 32, hexDigits n = hexDigits m → n = m := by
  decide

theorem Escapes.cancel {c d : Char} {u v r s : List Char} (hu : Escapes c u) (hv : Escapes d v)
    (heq : u ++ r = v ++ s) : c = d ∧ r = s := by
  cases hu with
  | plain hquote hslash =>
    cases hv with
    | plain => exact List.cons.inj heq
    | short | numbered => exact absurd (List.cons.inj heq).1 hslash
  | short hx =>
    cases hv with
    | plain hquote hslash => exact absurd (List.cons.inj heq).1.symm hslash
    | short hy =>
      obtain ⟨hxy, hrest⟩ := List.cons.inj (List.cons.inj heq).2
      exact ⟨shortEscapes_unique _ hx _ hy hxy, hrest⟩
    | numbered =>
      exact absurd (List.cons.inj (List.cons.inj heq).2).1 (shortEscapes_ne _ hx)
  | numbered hc =>
    cases hv with
    | plain hquote hslash => exact absurd (List.cons.inj heq).1.symm hslash
    | short hy =>
      exact absurd (List.cons.inj (List.cons.inj heq).2).1.symm (shortEscapes_ne _ hy)
    | numbered hd =>
      have hdigits := (List.cons.inj (List.cons.inj heq).2).2
      obtain ⟨hcd, hrest⟩ := List.append_inj hdigits
        ((length_hexDigits _ hc).trans (length_hexDigits _ hd).symm)
      exact ⟨Char.toNat_inj.mp (hexDigits_inj _ hc _ hd hcd), hrest⟩

theorem Escapes.ne_quote {c : Char} {u r s : List Char} (hu : Escapes c u) :
    u ++ r ≠ '"' :: s := by
  cases hu with
  | plain hquote hslash => exact fun heq => hquote (List.cons.inj heq).1
  | short | numbered => exact fun heq => absurd (List.cons.inj heq).1 (by decide)

theorem quoted_cancel {cs ds : List Char} (hcs : ∀ c ∈ cs, c.toNat ≤ 0xFFFF)
    (hds : ∀ d ∈ ds, d.toNat ≤ 0xFFFF) {r s : List Char}
    (heq : cs.flatMap escapeChar ++ '"' :: r = ds.flatMap escapeChar ++ '"' :: s) :
    cs = ds ∧ r = s := by
  induction cs generalizing ds with
  | nil =>
    cases ds with
    | nil => exact ⟨rfl, (List.cons.inj heq).2⟩
    | cons d ds =>
      rw [List.flatMap_cons, List.append_assoc] at heq
      exact absurd heq.symm (escapes (hds d List.mem_cons_self)).ne_quote
  | cons c cs ih =>
    obtain ⟨hc, hcs⟩ := List.forall_mem_cons.mp hcs
    rw [List.flatMap_cons, List.append_assoc] at heq
    cases ds with
    | nil => exact absurd heq (escapes hc).ne_quote
    | cons d ds =>
      obtain ⟨hd, hds⟩ := List.forall_mem_cons.mp hds
      rw [List.flatMap_cons, List.append_assoc] at heq
      obtain ⟨hcd, hrest⟩ := (escapes hc).cancel (escapes hd) heq
      obtain ⟨htexts, hend⟩ := ih hcs hds hrest
      exact ⟨congrArg₂ List.cons hcd htexts, hend⟩

/-- **String literals** of the first plane are legible before anything at all. -/
theorem quote_cancel {a b : String} (ha : ∀ c ∈ a.toList, c.toNat ≤ 0xFFFF)
    (hb : ∀ c ∈ b.toList, c.toNat ≤ 0xFFFF) {r s : List Char}
    (heq : (quote a).toList ++ r = (quote b).toList ++ s) : a = b ∧ r = s := by
  simp only [quote, quoteChars, String.toList_ofList, List.cons_append, List.append_assoc,
    List.nil_append, List.cons.injEq, true_and] at heq
  obtain ⟨htexts, hrest⟩ := quoted_cancel ha hb heq
  exact ⟨String.toList_inj.mp htexts, hrest⟩

end Arborist.Query
