import Arborist.Proofs.Equality
import Arborist.Proofs.PrintedValues
import Mathlib

/-!
# Printed documents

Documents that are well formed print differently unless they are equal
(`Document.beq_of_print_eq`). The proof goes from the inside out: every kind of nodes has a script,
and is shown to be legible before what can stand behind it. A selection is followed by a blank and
then by another selection or the end of its selection set (`Selection.Ends`), so that neither a
directive nor a selection set can be missed; definitions end with a bracket, and anything may follow
them.
-/

namespace Arborist.Query

/-! ### Well-formed documents -/

/-- Fields whose names, arguments and directives are well formed. -/
def Field.wellFormed (f : Field) : Bool :=
  f.alias?.all isName && isName f.name && f.arguments.items.all Argument.wellFormed &&
    f.directives.items.all Directive.wellFormed

namespace Selection

mutual

/-- Selections that are **well formed**: an inline fragment selects something. -/
def wellFormed : Selection → Bool
  | .field f ⟨_, items⟩ => f.wellFormed && wellFormedList items
  | .spread name directives => isName name && directives.items.all Directive.wellFormed
  | .inline typeCondition directives ⟨_, items⟩ =>
    typeCondition.all isName && directives.items.all Directive.wellFormed && !items.isEmpty &&
      wellFormedList items
termination_by structural selection => selection

/-- Whether all selections of a list are well formed. -/
def wellFormedList : List Selection → Bool
  | [] => true
  | selection :: rest => selection.wellFormed && wellFormedList rest
termination_by structural items => items

end

theorem wellFormed_field_iff {f : Field} {b : Block Selection} :
    (field f b).wellFormed = true ↔ f.wellFormed = true ∧ wellFormedList b.items = true := by
  rw [wellFormed, Bool.and_eq_true]

theorem wellFormed_inline_iff {t : Option String} {ds : Block Directive} {b : Block Selection} :
    (inline t ds b).wellFormed = true ↔ t.all isName = true ∧
      ds.items.all Directive.wellFormed = true ∧ b.items ≠ [] ∧
        wellFormedList b.items = true := by
  simp [wellFormed, and_assoc]

end Selection

/-- Selection sets that are well formed and select something. -/
def wellFormedSelections (b : Block Selection) : Bool :=
  !b.items.isEmpty && Selection.wellFormedList b.items

/-- Variable definitions that are well formed. -/
def VariableDefinition.wellFormed (v : VariableDefinition) : Bool :=
  isName v.name && v.type.wellFormed && v.default.wellFormed &&
    v.directives.items.all Directive.wellFormed

/-- Operations that are well formed. -/
def Operation.wellFormed (o : Operation) : Bool :=
  o.name.all isName && o.variableDefinitions.items.all VariableDefinition.wellFormed &&
    o.directives.items.all Directive.wellFormed && wellFormedSelections o.selections

/-- Fragments that are well formed. -/
def Fragment.wellFormed (f : Fragment) : Bool :=
  isName f.name && isName f.typeCondition && f.directives.items.all Directive.wellFormed &&
    wellFormedSelections f.selections

/-- Definitions that are well formed. -/
def Definition.wellFormed : Definition → Bool
  | .operation o => o.wellFormed
  | .fragment f => f.wellFormed

/-- Documents all of whose definitions are **well formed**. -/
def Document.wellFormed (d : Document) : Bool :=
  d.definitions.items.all Definition.wellFormed

/-! ### What stands behind a blank -/

/-- Texts that go on after a blank, but not with a directive. -/
def Parted (r : List Char) : Prop :=
  ∃ c t, r = ' ' :: c :: t ∧ c ≠ '@'

theorem Parted.concludes {r : List Char} (hr : Parted r) : Concludes r := by
  obtain ⟨c, t, rfl, hc⟩ := hr
  refine ⟨(breaks_cons _ _).mpr rfl, ?_, ?_⟩
  · rintro ⟨u, hu⟩
    simp at hu
  · rintro ⟨u, hu⟩
    simp [hc] at hu

/-- Directives are seen by their second character, before anything that can stand behind them. -/
theorem printDirectives_cases (b : Block Directive) (r : List Char) :
    (printDirectives b).toList ++ r = r ∨
      ∃ t, (printDirectives b).toList ++ r = ' ' :: '@' :: t := by
  cases h : b.items with
  | nil => exact .inl (by simp [printDirectives, h])
  | cons d items => exact .inr ⟨_, by simp [printDirectives, h, Directive.print]; rfl⟩

theorem printDirectives_cons (b : Block Directive) {r : List Char} (hr : Parted r) :
    ∃ t, (printDirectives b).toList ++ r = ' ' :: t := by
  obtain h | ⟨t, h⟩ := printDirectives_cases b r
  · obtain ⟨c, t, rfl, -⟩ := hr
    exact ⟨c :: t, h⟩
  · exact ⟨'@' :: t, h⟩

theorem not_begins_printDirectives (b : Block Directive) {r : List Char} (hr : Parted r) :
    ¬ Begins "(" ((printDirectives b).toList ++ r) := by
  rintro ⟨u, hu⟩
  obtain ⟨t, ht⟩ := printDirectives_cons b hr
  simp [ht] at hu

theorem breaks_printDirectives (b : Block Directive) {r : List Char} (hr : Parted r) :
    Breaks ((printDirectives b).toList ++ r) := by
  obtain ⟨t, ht⟩ := printDirectives_cons b hr
  rw [ht, breaks_cons]
  rfl

/-! ### Fields -/

namespace Field

/-- What stands behind the names of a field. -/
def details (f : Field) (r : List Char) : List Char :=
  (printArguments f.arguments).toList ++ ((printDirectives f.directives).toList ++ r)

theorem toList_print (f : Field) (r : List Char) : f.print.toList ++ r =
    match f.alias? with
    | some label => label.toList ++ ':' :: ' ' :: (f.name.toList ++ f.details r)
    | none => f.name.toList ++ f.details r := by
  cases h : f.alias? <;> simp [print, details, h]

theorem details_cons (f : Field) {r : List Char} (hr : Parted r) :
    ∃ c t, f.details r = c :: t ∧ (c = '(' ∨ c = ' ') := by
  cases h : f.arguments.items with
  | nil =>
    obtain ⟨t, ht⟩ := printDirectives_cons f.directives hr
    exact ⟨' ', t, by simp [details, printArguments, enclosed, h, ht], .inr rfl⟩
  | cons a items =>
    exact ⟨'(', _, by simp [details, printArguments, enclosed, h]; rfl, .inl rfl⟩

theorem breaks_details (f : Field) {r : List Char} (hr : Parted r) : Breaks (f.details r) := by
  obtain ⟨c, t, ht, rfl | rfl⟩ := f.details_cons hr <;> simp [ht, isWordChar]

theorem details_ne_colon (f : Field) {r : List Char} (hr : Parted r) (t : List Char) :
    f.details r ≠ ':' :: t := by
  obtain ⟨c, u, hu, rfl | rfl⟩ := f.details_cons hr <;> simp [hu]

theorem details_cancel {f g : Field} (hf : f.wellFormed = true) (hg : g.wellFormed = true)
    {r s : List Char} (hr : Parted r) (hs : Parted s) (heq : f.details r = g.details s) :
    f.arguments.items = g.arguments.items ∧
      eraseDirectives f.directives = eraseDirectives g.directives ∧ r = s := by
  simp only [wellFormed, Bool.and_eq_true] at hf hg
  obtain ⟨hitems, hdirectives⟩ := printArguments_cancel hf.1.2 hg.1.2
    (not_begins_printDirectives _ hr) (not_begins_printDirectives _ hs) heq
  obtain ⟨herase, hrest⟩ :=
    printDirectives_cancel hf.2 hg.2 hr.concludes hs.concludes hdirectives
  exact ⟨hitems, herase, hrest⟩

theorem names_cancel {f g : Field} (hf : f.wellFormed = true) (hg : g.wellFormed = true)
    {r s : List Char} (hr : Parted r) (hs : Parted s)
    (heq : f.print.toList ++ r = g.print.toList ++ s) :
    f.alias? = g.alias? ∧ f.name = g.name ∧ f.details r = g.details s := by
  simp only [wellFormed, Bool.and_eq_true] at hf hg
  obtain ⟨⟨⟨hlabel, hname⟩, -⟩, -⟩ := hf
  obtain ⟨⟨⟨hlabel', hname'⟩, -⟩, -⟩ := hg
  have hcolon : ∀ t : List Char, Breaks (':' :: t) := fun t => (breaks_cons _ t).mpr rfl
  rw [toList_print, toList_print] at heq
  cases ha : f.alias? with
  | none =>
    cases hb : g.alias? with
    | none =>
      simp only [ha, hb] at heq
      obtain ⟨hnames, hdetails⟩ :=
        name_cancel hname hname' (f.breaks_details hr) (g.breaks_details hs) heq
      exact ⟨rfl, hnames, hdetails⟩
    | some label' =>
      simp only [ha, hb, Option.all_some] at heq hlabel'
      obtain ⟨-, hdetails⟩ := name_cancel hname hlabel' (f.breaks_details hr) (hcolon _) heq
      exact absurd hdetails (f.details_ne_colon hr _)
  | some label =>
    cases hb : g.alias? with
    | none =>
      simp only [ha, hb, Option.all_some] at heq hlabel
      obtain ⟨-, hdetails⟩ := name_cancel hlabel hname' (hcolon _) (g.breaks_details hs) heq
      exact absurd hdetails.symm (g.details_ne_colon hs _)
    | some label' =>
      simp only [ha, hb, Option.all_some] at heq hlabel hlabel'
      obtain ⟨rfl, hrest⟩ := name_cancel hlabel hlabel' (hcolon _) (hcolon _) heq
      obtain ⟨hnames, hdetails⟩ := name_cancel hname hname' (f.breaks_details hr)
        (g.breaks_details hs) (List.cons.inj (List.cons.inj hrest).2).2
      exact ⟨rfl, hnames, hdetails⟩

/-- **Fields** without their selections are legible before a blank and no directive. -/
theorem print_cancel {f g : Field} (hf : f.wellFormed = true) (hg : g.wellFormed = true)
    {r s : List Char} (hr : Parted r) (hs : Parted s)
    (heq : f.print.toList ++ r = g.print.toList ++ s) : f.erase = g.erase ∧ r = s := by
  obtain ⟨hlabel, hname, hdetails⟩ := names_cancel hf hg hr hs heq
  obtain ⟨hitems, hdirectives, hrest⟩ := details_cancel hf hg hr hs hdetails
  refine ⟨?_, hrest⟩
  simp [erase, Block.erase, hlabel, hname, hitems, hdirectives]

/-- A field begins like a name. -/
theorem print_cons {f : Field} (hf : f.wellFormed = true) :
    ∃ c t, f.print.toList = c :: t ∧ isNameStart c = true := by
  simp only [wellFormed, Bool.and_eq_true] at hf
  obtain ⟨⟨⟨hlabel, hname⟩, -⟩, -⟩ := hf
  have hprint := f.toList_print []
  rw [List.append_nil] at hprint
  cases ha : f.alias? with
  | none =>
    obtain ⟨c, t, hc, hstart⟩ := name_cons hname
    exact ⟨c, _, by simp [hprint, ha, hc]; rfl, hstart⟩
  | some label =>
    simp only [ha, Option.all_some] at hlabel
    obtain ⟨c, t, hc, hstart⟩ := name_cons hlabel
    exact ⟨c, _, by simp [hprint, ha, hc]; rfl, hstart⟩

end Field

/-! ### Selections -/

namespace Selection

/-- The script of selections. -/
def script : Script Selection Selection where
  write := print
  see := erase
  Sound a := a.wellFormed = true
  Ends r := Parted r ∧ ¬ Begins " \x7b " r

/-- The script of selection sets, with the blank in front. -/
def sets : Script (List Selection) (List Selection) :=
  script.enclosed " \x7b " " " " \x7d"

theorem printList_eq_map (items : List Selection) : printList items = items.map script.write := by
  induction items with
  | nil => rfl
  | cons a items ih => rw [printList, ih, List.map_cons]; rfl

theorem write_sets {items : List Selection} (h : items ≠ []) :
    sets.write items = " " ++ enclosedSelections (printList items) := by
  obtain ⟨a, items, rfl⟩ := List.exists_cons_of_ne_nil h
  apply String.toList_inj.mp
  simp [sets, Script.enclosed, enclosedSelections, enclosed, printList_eq_map]

theorem print_field (f : Field) (b : Block Selection) :
    (field f b).print = f.print ++ sets.write b.items := by
  obtain ⟨label, items⟩ := b
  cases items with
  | nil => simp [print, sets, Script.enclosed, enclosed]
  | cons a items => rw [write_sets (by simp), print, ← String.append_assoc, printList]

/-! ### Bodies -/

/-- The **body** of an inline fragment or of a definition: its directives and its selection set. -/
def body (ds : Block Directive) (b : Block Selection) (r : List Char) : List Char :=
  (printDirectives ds).toList ++ ((sets.write b.items).toList ++ r)

theorem toList_sets {items : List Selection} (h : items ≠ []) (r : List Char) :
    ∃ t, (sets.write items).toList ++ r = ' ' :: '\x7b' :: t := by
  obtain ⟨a, items, rfl⟩ := List.exists_cons_of_ne_nil h
  exact ⟨_, by simp [sets, Script.toList_enclosed_cons]; rfl⟩

theorem body_cons (ds : Block Directive) {b : Block Selection} (h : b.items ≠ [])
    (r : List Char) : ∃ c t, body ds b r = ' ' :: c :: t ∧ (c = '@' ∨ c = '\x7b') := by
  obtain ⟨t, ht⟩ := toList_sets h r
  obtain hds | ⟨u, hu⟩ := printDirectives_cases ds ((sets.write b.items).toList ++ r)
  · exact ⟨_, t, hds.trans ht, .inr rfl⟩
  · exact ⟨_, u, hu, .inl rfl⟩

theorem breaks_body (ds : Block Directive) {b : Block Selection} (h : b.items ≠ [])
    (r : List Char) : Breaks (body ds b r) := by
  obtain ⟨c, t, ht, -⟩ := body_cons ds h r
  rw [ht, breaks_cons]
  rfl

/-! ### Forms of selections -/

/-- What an inline fragment says before its body. -/
def condition : Option String → List Char
  | some name => ' ' :: 'o' :: 'n' :: ' ' :: name.toList
  | none => []

theorem toList_print_inline (typeCondition : Option String) (ds : Block Directive)
    {b : Block Selection} (h : b.items ≠ []) (r : List Char) :
    (inline typeCondition ds b).print.toList ++ r =
      '.' :: '.' :: '.' :: (condition typeCondition ++ body ds b r) := by
  obtain ⟨label, items⟩ := b
  cases typeCondition <;> simp [print, write_sets h, condition, body]

theorem toList_print_spread (name : String) (ds : Block Directive) (r : List Char) :
    (spread name ds).print.toList ++ r =
      '.' :: '.' :: '.' :: (name.toList ++ ((printDirectives ds).toList ++ r)) := by
  simp [print]

/-- A selection begins with a letter, an underscore or a point. -/
theorem print_cons {a : Selection} (ha : a.wellFormed = true) (r : List Char) :
    ∃ c t, a.print.toList ++ r = c :: t ∧ (isNameStart c = true ∨ c = '.') := by
  cases a with
  | field f b =>
    simp only [wellFormed, Bool.and_eq_true] at ha
    obtain ⟨c, t, hc, hstart⟩ := Field.print_cons ha.1
    exact ⟨c, _, by simp [print_field, hc]; rfl, .inl hstart⟩
  | spread name ds => exact ⟨'.', _, toList_print_spread name ds r, .inr rfl⟩
  | inline t ds b => exact ⟨'.', _, by simp [print]; rfl, .inr rfl⟩

theorem field_ne_point {f : Field} (hf : f.wellFormed = true) (b : Block Selection)
    (r t : List Char) : (field f b).print.toList ++ r ≠ '.' :: t := by
  obtain ⟨c, u, hc, hstart⟩ := Field.print_cons hf
  intro heq
  rw [print_field, String.toList_append, hc] at heq
  rw [(List.cons.inj heq).1] at hstart
  exact absurd hstart (by decide)

theorem spread_ne_inline {name : String} (hname : isName name = true) (ds es : Block Directive)
    (t : Option String) {b : Block Selection} (hb : b.items ≠ []) (r s : List Char) :
    (spread name ds).print.toList ++ r ≠ (inline t es b).print.toList ++ s := by
  rw [toList_print_spread, toList_print_inline t es hb]
  intro heq
  simp only [List.cons.injEq, true_and] at heq
  have hbreaks : Breaks (condition t ++ body es b s) := by
    cases t with
    | some => exact (breaks_cons _ _).mpr rfl
    | none => exact breaks_body es hb s
  exact (isWord_of_isName hname).not_breaks _ (heq ▸ hbreaks)

/-- The type condition, or that there is none, is seen before a body. -/
theorem condition_cancel {t u : Option String} (ht : t.all isName = true)
    (hu : u.all isName = true) (ds es : Block Directive) {b b' : Block Selection}
    (hb : b.items ≠ []) (hb' : b'.items ≠ []) {r s : List Char}
    (heq : condition t ++ body ds b r = condition u ++ body es b' s) :
    t = u ∧ body ds b r = body es b' s := by
  cases t with
  | none =>
    cases u with
    | none => exact ⟨rfl, heq⟩
    | some name =>
      obtain ⟨c, v, hv, hc⟩ := body_cons ds hb r
      obtain ⟨rfl, -⟩ : c = 'o' ∧ _ := by simpa [condition, hv] using heq
      exact absurd hc (by decide)
  | some name =>
    cases u with
    | none =>
      obtain ⟨c, v, hv, hc⟩ := body_cons es hb' s
      obtain ⟨rfl, -⟩ : 'o' = c ∧ _ := by simpa [condition, hv] using heq
      exact absurd hc (by decide)
    | some name' =>
      simp only [condition, List.cons_append, List.cons.injEq, true_and] at heq
      obtain ⟨rfl, hrest⟩ := name_cancel ht hu (breaks_body ds hb r) (breaks_body es hb' s) heq
      exact ⟨rfl, hrest⟩

/-! ### Selections are legible -/

theorem separates : script.Separates " " (Begins " \x7d") where
  next a t ha := by
    obtain ⟨c, u, hc, hstart⟩ := print_cons ha t
    have hne : c ≠ '@' ∧ c ≠ '\x7b' := by
      obtain hstart | rfl := hstart
      · constructor <;> (rintro rfl; exact absurd hstart (by decide))
      · decide
    refine ⟨⟨c, u, by simp [script, hc], hne.1⟩, ?_⟩
    rintro ⟨v, hv⟩
    simp [script, hc, hne.2] at hv
  last := by
    rintro r ⟨t, rfl⟩
    refine ⟨⟨'\x7d', t, by simp, by decide⟩, ?_⟩
    rintro ⟨v, hv⟩
    simp at hv
  apart := by
    rintro a t r ha ⟨v, rfl⟩ heq
    obtain ⟨c, u, hc, hstart⟩ := print_cons ha t
    obtain ⟨rfl, -⟩ : c = '\x7d' ∧ u = v := by simpa [script, hc] using heq
    exact absurd hstart (by decide)

theorem parted_sets (items : List Selection) {r : List Char} (hr : Parted r) :
    Parted ((sets.write items).toList ++ r) := by
  by_cases h : items = []
  · subst h
    simpa [sets, Script.enclosed, enclosed] using hr
  · obtain ⟨t, ht⟩ := toList_sets h r
    exact ⟨_, _, ht, by decide⟩

theorem body_cancel_of_legible {ds es : Block Directive}
    (hds : ds.items.all Directive.wellFormed = true)
    (hes : es.items.all Directive.wellFormed = true) {b b' : Block Selection}
    (hb : ∀ a ∈ b.items, script.Sound a ∧ script.Legible a) (hb' : ∀ a ∈ b'.items, script.Sound a)
    (hne : b.items ≠ []) (hne' : b'.items ≠ []) {r s : List Char}
    (heq : body ds b r = body es b' s) :
    eraseDirectives ds = eraseDirectives es ∧ eraseSelections b = eraseSelections b' ∧ r = s := by
  have hconcludes : ∀ {b : Block Selection} (r : List Char), b.items ≠ [] →
      Concludes ((sets.write b.items).toList ++ r) := by
    intro b r h
    obtain ⟨t, ht⟩ := toList_sets h r
    exact Parted.concludes ⟨_, _, ht, by decide⟩
  obtain ⟨herase, hsets⟩ :=
    printDirectives_cancel hds hes (hconcludes r hne) (hconcludes s hne') heq
  obtain ⟨a, as, has⟩ := List.exists_cons_of_ne_nil hne
  obtain ⟨a', as', has'⟩ := List.exists_cons_of_ne_nil hne'
  rw [has] at hb hsets
  rw [has'] at hb' hsets
  obtain ⟨hitems, hrest⟩ := separates.enclosed_cons hb hb' hsets
  refine ⟨herase, ?_, hrest⟩
  rw [eraseSelections, eraseSelections, has, has', eraseList_eq_map, eraseList_eq_map]
  exact congrArg (Block.mk 0) hitems

theorem sound_list {items : List Selection} (h : wellFormedList items = true) :
    ∀ a ∈ items, script.Sound a := by
  induction items with
  | nil => nofun
  | cons a items ih =>
    rw [wellFormedList, Bool.and_eq_true] at h
    exact List.forall_mem_cons.mpr ⟨h.1, ih h.2⟩

mutual

/-- **Selections** are legible before a blank that neither a directive nor a selection set
follows. -/
theorem legible : ∀ a : Selection, a.wellFormed = true → script.Legible a
  -- Only a field begins like a name, and only a spread has a name right behind the points.
  | .field f ⟨label, items⟩, ha => by
    intro b r s hb hr hs heq
    simp only [script] at hb heq
    obtain ⟨hf, hitems⟩ := wellFormed_field_iff.mp ha
    cases b with
    | field g b =>
      obtain ⟨hg, hitems'⟩ := wellFormed_field_iff.mp hb
      rw [print_field, print_field, String.toList_append, String.toList_append,
        List.append_assoc, List.append_assoc] at heq
      obtain ⟨hfield, hsets⟩ :=
        Field.print_cancel hf hg (parted_sets _ hr.1) (parted_sets _ hs.1) heq
      obtain ⟨herase, hrest⟩ := separates.enclosed (legible_list items hitems) b.items r s
        (sound_list hitems') hr.2 hs.2 hsets
      refine ⟨?_, hrest⟩
      show (field f ⟨label, items⟩).erase = (field g b).erase
      rw [erase_field, erase_field, hfield, eraseSelections, eraseSelections, eraseList_eq_map,
        eraseList_eq_map]
      exact congrArg (fun items => field g.erase ⟨0, items⟩) herase
    | spread name ds =>
      rw [toList_print_spread] at heq
      exact absurd heq (field_ne_point hf _ r _)
    | inline t ds b =>
      obtain ⟨-, -, hne, -⟩ := wellFormed_inline_iff.mp hb
      rw [toList_print_inline t ds hne] at heq
      exact absurd heq (field_ne_point hf _ r _)
  | .spread name ds, ha => by
    intro b r s hb hr hs heq
    simp only [script] at hb heq
    rw [wellFormed, Bool.and_eq_true] at ha
    cases b with
    | field g b =>
      rw [toList_print_spread] at heq
      exact absurd heq.symm (field_ne_point (wellFormed_field_iff.mp hb).1 _ s _)
    | spread name' es =>
      rw [wellFormed, Bool.and_eq_true] at hb
      rw [toList_print_spread, toList_print_spread] at heq
      simp only [List.cons.injEq, true_and] at heq
      obtain ⟨rfl, hdirectives⟩ := name_cancel ha.1 hb.1 (breaks_printDirectives ds hr.1)
        (breaks_printDirectives es hs.1) heq
      obtain ⟨herase, hrest⟩ :=
        printDirectives_cancel ha.2 hb.2 hr.1.concludes hs.1.concludes hdirectives
      exact ⟨congrArg (spread name) herase, hrest⟩
    | inline t es b =>
      obtain ⟨-, -, hne, -⟩ := wellFormed_inline_iff.mp hb
      exact absurd heq (spread_ne_inline ha.1 ds es t hne r s)
  | .inline t ds ⟨label, items⟩, ha => by
    intro b r s hb hr hs heq
    simp only [script] at hb heq
    obtain ⟨ht, hds, hne, hitems⟩ := wellFormed_inline_iff.mp ha
    cases b with
    | field g b =>
      rw [toList_print_inline t ds hne] at heq
      exact absurd heq.symm (field_ne_point (wellFormed_field_iff.mp hb).1 _ s _)
    | spread name es =>
      rw [wellFormed, Bool.and_eq_true] at hb
      exact absurd heq.symm (spread_ne_inline hb.1 es ds t hne s r)
    | inline u es b =>
      obtain ⟨hu, hes, hne', hitems'⟩ := wellFormed_inline_iff.mp hb
      rw [toList_print_inline t ds hne, toList_print_inline u es hne'] at heq
      simp only [List.cons.injEq, true_and] at heq
      obtain ⟨rfl, hbody⟩ := condition_cancel ht hu ds es hne hne' heq
      obtain ⟨hdirectives, hselections, hrest⟩ := body_cancel_of_legible hds hes
        (legible_list items hitems) (sound_list hitems') hne hne' hbody
      refine ⟨?_, hrest⟩
      show (inline t ds ⟨label, items⟩).erase = (inline t es b).erase
      rw [erase_inline, erase_inline, hdirectives, hselections]

theorem legible_list : ∀ items : List Selection, wellFormedList items = true →
    ∀ a ∈ items, script.Sound a ∧ script.Legible a
  | [], _ => nofun
  | a :: items, h => by
    rw [wellFormedList, Bool.and_eq_true] at h
    exact List.forall_mem_cons.mpr ⟨⟨h.1, legible a h.1⟩, legible_list items h.2⟩

end

end Selection

/-! ### Variable definitions -/

/-- Texts that go on with the next item of a list in parentheses, or with its end. -/
def Listed (r : List Char) : Prop :=
  ∃ c t, r = c :: t ∧ (c = ',' ∨ c = ')')

theorem Listed.concludes {r : List Char} (hr : Listed r) : Concludes r := by
  obtain ⟨c, t, rfl, hc⟩ := hr
  refine ⟨?_, ?_, ?_⟩
  · obtain rfl | rfl := hc <;> exact (breaks_cons _ t).mpr rfl
  · rintro ⟨u, hu⟩
    obtain rfl | rfl := hc <;> simp at hu
  · rintro ⟨u, hu⟩
    obtain rfl | rfl := hc <;> simp at hu

namespace VariableDefinition

/-- What a variable definition says of its default. -/
def defaultText (value : Value) : List Char :=
  if value.isNull then [] else ' ' :: '=' :: ' ' :: value.print.toList

theorem defaultText_of_ne {value : Value} (h : value ≠ .null) :
    defaultText value = ' ' :: '=' :: ' ' :: value.print.toList := by
  cases value with
  | null => exact absurd rfl h
  | _ => rfl

theorem toList_print (v : VariableDefinition) (r : List Char) :
    v.print.toList ++ r = '$' :: (v.name.toList ++ ':' :: ' ' :: (v.type.print.toList ++
      (defaultText v.default ++ ((printDirectives v.directives).toList ++ r)))) := by
  cases h : v.default.isNull <;> simp [print, defaultText, h]

theorem directives_cons (ds : Block Directive) {r : List Char} (hr : Listed r) :
    ∃ c t, (printDirectives ds).toList ++ r = c :: t ∧
      (c = ',' ∨ c = ')' ∨ c = ' ' ∧ ∃ u, t = '@' :: u) := by
  obtain h | ⟨u, hu⟩ := printDirectives_cases ds r
  · obtain ⟨c, t, rfl, hc⟩ := hr
    exact ⟨c, t, h, hc.imp_right .inl⟩
  · exact ⟨' ', '@' :: u, hu, .inr (.inr ⟨rfl, u, rfl⟩)⟩

theorem directives_ne_default (ds : Block Directive) {r : List Char} (hr : Listed r)
    (t : List Char) : (printDirectives ds).toList ++ r ≠ ' ' :: '=' :: t := by
  obtain ⟨c, u, hu, rfl | rfl | ⟨rfl, v, rfl⟩⟩ := directives_cons ds hr <;> simp [hu]

theorem breaks_directives (ds : Block Directive) {r : List Char} (hr : Listed r) :
    Breaks ((printDirectives ds).toList ++ r) := by
  obtain ⟨c, u, hu, rfl | rfl | ⟨rfl, -⟩⟩ := directives_cons ds hr <;>
    exact hu ▸ (breaks_cons _ u).mpr rfl

theorem default_cancel {v w : Value} (hv : v.wellFormed = true) (hw : w.wellFormed = true)
    (ds es : Block Directive) {r s : List Char} (hr : Listed r) (hs : Listed s)
    (heq : defaultText v ++ ((printDirectives ds).toList ++ r) =
      defaultText w ++ ((printDirectives es).toList ++ s)) :
    v = w ∧ (printDirectives ds).toList ++ r = (printDirectives es).toList ++ s := by
  by_cases hv' : v = .null <;> by_cases hw' : w = .null
  · subst hv' hw'
    exact ⟨rfl, heq⟩
  · rw [defaultText_of_ne hw', hv'] at heq
    exact absurd heq (directives_ne_default ds hr _)
  · rw [defaultText_of_ne hv', hw'] at heq
    exact absurd heq.symm (directives_ne_default es hs _)
  · rw [defaultText_of_ne hv', defaultText_of_ne hw'] at heq
    exact Value.legible v hv w _ _ hw (breaks_directives ds hr) (breaks_directives es hs)
      (List.cons.inj (List.cons.inj (List.cons.inj heq).2).2).2

/-- Behind a type there is neither a word nor an exclamation mark. -/
theorem default_cons (v : Value) (ds : Block Directive) {r : List Char} (hr : Listed r) :
    Breaks (defaultText v ++ ((printDirectives ds).toList ++ r)) ∧
      ∀ t, defaultText v ++ ((printDirectives ds).toList ++ r) ≠ '!' :: t := by
  by_cases hv : v = .null
  · subst hv
    refine ⟨breaks_directives ds hr, fun t => ?_⟩
    obtain ⟨c, u, hu, rfl | rfl | ⟨rfl, -⟩⟩ := directives_cons ds hr <;>
      simp [defaultText, Value.isNull, hu]
  · simp [defaultText_of_ne hv, isWordChar]

/-- The script of variable definitions. -/
def script : Script VariableDefinition VariableDefinition where
  write := print
  see := erase
  Sound v := v.wellFormed = true
  Ends := Listed

/-- **Variable definitions** are legible in a list. -/
theorem legible {v : VariableDefinition} (hv : v.wellFormed = true) : script.Legible v := by
  intro w r s hw hr hs heq
  simp only [script, wellFormed, Bool.and_eq_true] at hv hw heq
  obtain ⟨⟨⟨hname, htype⟩, hdefault⟩, hdirectives⟩ := hv
  obtain ⟨⟨⟨hname', htype'⟩, hdefault'⟩, hdirectives'⟩ := hw
  rw [toList_print, toList_print] at heq
  obtain ⟨hnames, heq⟩ := name_cancel hname hname' ((breaks_cons _ _).mpr rfl)
    ((breaks_cons _ _).mpr rfl) (List.cons.inj heq).2
  obtain ⟨htypes, heq⟩ := TypeRef.print_cancel htype htype' (default_cons _ _ hr)
    (default_cons _ _ hs) (List.cons.inj (List.cons.inj heq).2).2
  obtain ⟨hdefaults, heq⟩ := default_cancel hdefault hdefault' _ _ hr hs heq
  obtain ⟨herase, hrest⟩ :=
    printDirectives_cancel hdirectives hdirectives' hr.concludes hs.concludes heq
  refine ⟨?_, hrest⟩
  show v.erase = w.erase
  simp [erase, hnames, htypes, hdefaults, herase]

theorem separates : script.Separates ", " (Begins ")") :=
  Script.separates_commas rfl (by decide) fun x t hx => ⟨x, t, rfl, hx⟩

end VariableDefinition

/-! ### Operations -/

theorem OperationKind.isName_print (k : OperationKind) : isName k.print = true := by
  cases k <;> decide

theorem OperationKind.print_inj {k l : OperationKind} (h : k.print = l.print) : k = l := by
  cases k <;> cases l <;> first | rfl | exact absurd h (by decide)

theorem wellFormedSelections_iff {b : Block Selection} : wellFormedSelections b = true ↔
    b.items ≠ [] ∧ Selection.wellFormedList b.items = true := by
  simp [wellFormedSelections]

theorem toList_printSelections {b : Block Selection} (hb : b.items ≠ []) (r : List Char) :
    ' ' :: ((printSelections b).toList ++ r) = (Selection.sets.write b.items).toList ++ r := by
  simp [printSelections, Selection.write_sets hb]

/-- **Bodies** are legible, whatever follows. -/
theorem body_cancel {ds es : Block Directive} {b b' : Block Selection}
    (hds : ds.items.all Directive.wellFormed = true)
    (hes : es.items.all Directive.wellFormed = true) (hb : wellFormedSelections b = true)
    (hb' : wellFormedSelections b' = true) {r s : List Char}
    (heq : Selection.body ds b r = Selection.body es b' s) :
    eraseDirectives ds = eraseDirectives es ∧ eraseSelections b = eraseSelections b' ∧ r = s := by
  obtain ⟨hne, hitems⟩ := wellFormedSelections_iff.mp hb
  obtain ⟨hne', hitems'⟩ := wellFormedSelections_iff.mp hb'
  exact Selection.body_cancel_of_legible hds hes (Selection.legible_list _ hitems)
    (Selection.sound_list hitems') hne hne' heq

namespace Operation

/-- Operations that are printed as their selection set alone. -/
def IsShort (o : Operation) : Prop :=
  o.kind = .query ∧ o.name.isNone ∧ o.variableDefinitions.items.isEmpty ∧
    o.directives.items.isEmpty

/-- What an operation says between its kind and its body. -/
def signature : Option String → Block VariableDefinition → List Char
  | some name, vs => ' ' :: (name.toList ++
      ((VariableDefinition.script.enclosed "(" ", " ")").write vs.items).toList)
  | none, vs => ((VariableDefinition.script.enclosed " (" ", " ")").write vs.items).toList

theorem toList_print_short {o : Operation} (ho : o.IsShort) (hne : o.selections.items ≠ [])
    (r : List Char) : ' ' :: (o.print.toList ++ r) =
      Selection.body o.directives o.selections r := by
  have hdirectives : o.directives.items = [] := List.isEmpty_iff.mp ho.2.2.2
  rw [IsShort] at ho
  rw [print, if_pos ho, toList_printSelections hne]
  simp [Selection.body, printDirectives, hdirectives]

theorem toList_print_long {o : Operation} (ho : ¬ o.IsShort) (hne : o.selections.items ≠ [])
    (r : List Char) : o.print.toList ++ r = o.kind.print.toList ++
      (signature o.name o.variableDefinitions ++
        Selection.body o.directives o.selections r) := by
  rw [IsShort] at ho
  rw [print, if_neg ho, Selection.body, ← toList_printSelections hne]
  cases hname : o.name with
  | some name =>
    simp [signature, printVariables, Script.enclosed, VariableDefinition.script]
  | none =>
    cases hvariables : o.variableDefinitions.items with
    | nil => simp [signature, printVariables, Script.enclosed, enclosed, hvariables]
    | cons v items =>
      simp [signature, printVariables, Script.enclosed, enclosed, VariableDefinition.script,
        hvariables]

/-- Without a name there is no word behind the first blank. -/
theorem unnamed_cons (vs : Block VariableDefinition) (ds : Block Directive)
    {b : Block Selection} (hb : b.items ≠ []) (r : List Char) :
    ∃ t, signature none vs ++ Selection.body ds b r = ' ' :: t ∧ Breaks t := by
  cases hvariables : vs.items with
  | nil =>
    obtain ⟨c, t, ht, hc⟩ := Selection.body_cons ds hb r
    refine ⟨c :: t, by simp [signature, Script.enclosed, enclosed, hvariables, ht], ?_⟩
    obtain rfl | rfl := hc <;> exact (breaks_cons _ t).mpr rfl
  | cons v items =>
    exact ⟨'(' :: _, by simp [signature, Script.enclosed, enclosed, hvariables]; rfl,
      (breaks_cons _ _).mpr rfl⟩

theorem breaks_signature (name : Option String) (vs : Block VariableDefinition)
    (ds : Block Directive) {b : Block Selection} (hb : b.items ≠ []) (r : List Char) :
    Breaks (signature name vs ++ Selection.body ds b r) := by
  cases name with
  | some name => exact (breaks_cons _ _).mpr rfl
  | none =>
    obtain ⟨t, ht, -⟩ := unnamed_cons vs ds hb r
    rw [ht, breaks_cons]
    rfl

theorem breaks_variables (vs : Block VariableDefinition) (ds : Block Directive)
    {b : Block Selection} (hb : b.items ≠ []) (r : List Char) :
    Breaks (((VariableDefinition.script.enclosed "(" ", " ")").write vs.items).toList ++
      Selection.body ds b r) := by
  cases hvariables : vs.items with
  | nil => simpa [Script.enclosed, enclosed] using Selection.breaks_body ds hb r
  | cons v items => simp [Script.enclosed, enclosed, isWordChar]

theorem not_begins_body {opening : String} (hopening : opening = "(" ∨ opening = " (")
    (ds : Block Directive) {b : Block Selection} (hb : b.items ≠ []) (r : List Char) :
    ¬ Begins opening (Selection.body ds b r) := by
  obtain ⟨c, t, ht, hc⟩ := Selection.body_cons ds hb r
  rintro ⟨u, hu⟩
  obtain rfl | rfl := hopening
  · simp [ht] at hu
  · obtain ⟨rfl, -⟩ : c = '(' ∧ t = u := by simpa [ht] using hu
    exact absurd hc (by decide)

/-- The name of an operation and its variables are seen before a body. -/
theorem signature_cancel {n m : Option String} {vs ws : Block VariableDefinition}
    (hn : n.all isName = true) (hm : m.all isName = true)
    (hvs : vs.items.all VariableDefinition.wellFormed = true)
    (hws : ws.items.all VariableDefinition.wellFormed = true) (ds es : Block Directive)
    {b b' : Block Selection} (hb : b.items ≠ []) (hb' : b'.items ≠ []) {r s : List Char}
    (heq : signature n vs ++ Selection.body ds b r = signature m ws ++ Selection.body es b' s) :
    n = m ∧ vs.items.map VariableDefinition.erase = ws.items.map VariableDefinition.erase ∧
      Selection.body ds b r = Selection.body es b' s := by
  rw [List.all_eq_true] at hvs hws
  have hvariables : ∀ {opening : String}, opening = "(" ∨ opening = " (" →
      ((VariableDefinition.script.enclosed opening ", " ")").write vs.items).toList ++
          Selection.body ds b r =
        ((VariableDefinition.script.enclosed opening ", " ")").write ws.items).toList ++
          Selection.body es b' s →
      vs.items.map VariableDefinition.erase = ws.items.map VariableDefinition.erase ∧
        Selection.body ds b r = Selection.body es b' s := fun hopening =>
    VariableDefinition.separates.enclosed
      (fun v hv => ⟨hvs v hv, VariableDefinition.legible (hvs v hv)⟩) ws.items _ _ hws
      (not_begins_body hopening ds hb r) (not_begins_body hopening es hb' s)
  cases n with
  | none =>
    cases m with
    | none => exact ⟨rfl, hvariables (.inr rfl) heq⟩
    | some name =>
      obtain ⟨t, ht, hbreaks⟩ := unnamed_cons vs ds hb r
      rw [ht, signature, List.cons_append, List.append_assoc] at heq
      exact absurd ((List.cons.inj heq).2 ▸ hbreaks) ((isWord_of_isName hm).not_breaks _)
  | some name =>
    cases m with
    | none =>
      obtain ⟨t, ht, hbreaks⟩ := unnamed_cons ws es hb' s
      rw [ht, signature, List.cons_append, List.append_assoc] at heq
      exact absurd ((List.cons.inj heq).2 ▸ hbreaks) ((isWord_of_isName hn).not_breaks _)
    | some name' =>
      simp only [signature, List.cons_append, List.append_assoc, List.cons.injEq, true_and] at heq
      obtain ⟨rfl, hrest⟩ := name_cancel hn hm (breaks_variables vs ds hb r)
        (breaks_variables ws es hb' s) heq
      exact ⟨rfl, hvariables (.inl rfl) hrest⟩

theorem short_cons {o : Operation} (ho : o.IsShort) (hne : o.selections.items ≠ [])
    (r : List Char) : ∃ t, o.print.toList ++ r = '\x7b' :: t := by
  obtain ⟨t, ht⟩ := Selection.toList_sets hne r
  rw [IsShort] at ho
  rw [← toList_printSelections hne] at ht
  exact ⟨t, by rw [print, if_pos ho]; exact (List.cons.inj ht).2⟩

/-- Short forms begin with a bracket, where others begin with a word. -/
theorem short_ne_long {o p : Operation} (ho : o.IsShort) (hp : ¬ p.IsShort)
    (hne : o.selections.items ≠ []) (hne' : p.selections.items ≠ []) (r s : List Char) :
    o.print.toList ++ r ≠ p.print.toList ++ s := by
  intro heq
  obtain ⟨t, ht⟩ := short_cons ho hne r
  rw [ht, toList_print_long hp hne'] at heq
  exact (isWord_of_isName p.kind.isName_print).not_breaks _ (heq ▸ (breaks_cons _ t).mpr rfl)

/-- **Operations** are legible, whatever follows. -/
theorem print_cancel {o p : Operation} (ho : o.wellFormed = true) (hp : p.wellFormed = true)
    {r s : List Char} (heq : o.print.toList ++ r = p.print.toList ++ s) :
    o.erase = p.erase ∧ r = s := by
  simp only [wellFormed, Bool.and_eq_true] at ho hp
  obtain ⟨⟨⟨hname, hvariables⟩, hdirectives⟩, hselections⟩ := ho
  obtain ⟨⟨⟨hname', hvariables'⟩, hdirectives'⟩, hselections'⟩ := hp
  obtain ⟨hne, -⟩ := wellFormedSelections_iff.mp hselections
  obtain ⟨hne', -⟩ := wellFormedSelections_iff.mp hselections'
  -- In both forms it remains to read the kind and the signature; the bodies tell the rest.
  suffices h : o.kind = p.kind ∧ o.name = p.name ∧
      o.variableDefinitions.items.map VariableDefinition.erase =
        p.variableDefinitions.items.map VariableDefinition.erase ∧
      Selection.body o.directives o.selections r = Selection.body p.directives p.selections s by
    obtain ⟨hkind, hnames, hvariables, hbody⟩ := h
    obtain ⟨hdirectives, hselections, hrest⟩ :=
      body_cancel hdirectives hdirectives' hselections hselections' hbody
    refine ⟨?_, hrest⟩
    simp [erase, hkind, hnames, hvariables, hdirectives, hselections]
  by_cases hshort : o.IsShort <;> by_cases hshort' : p.IsShort
  · have hbody := congrArg (List.cons ' ') heq
    rw [toList_print_short hshort hne, toList_print_short hshort' hne'] at hbody
    obtain ⟨hkind, hnone, hempty, -⟩ := hshort
    obtain ⟨hkind', hnone', hempty', -⟩ := hshort'
    rw [Option.isNone_iff_eq_none] at hnone hnone'
    rw [List.isEmpty_iff] at hempty hempty'
    exact ⟨hkind.trans hkind'.symm, hnone.trans hnone'.symm, by rw [hempty, hempty'], hbody⟩
  · exact absurd heq (short_ne_long hshort hshort' hne hne' r s)
  · exact absurd heq.symm (short_ne_long hshort' hshort hne' hne s r)
  · rw [toList_print_long hshort hne, toList_print_long hshort' hne'] at heq
    obtain ⟨hkind, hrest⟩ := name_cancel o.kind.isName_print p.kind.isName_print
      (breaks_signature _ _ _ hne r) (breaks_signature _ _ _ hne' s) heq
    exact ⟨OperationKind.print_inj hkind,
      signature_cancel hname hname' hvariables hvariables' _ _ hne hne' hrest⟩

theorem print_cons {o : Operation} (hne : o.selections.items ≠ []) (r : List Char) :
    ∃ c t, o.print.toList ++ r = c :: t ∧ c ≠ 'f' := by
  by_cases ho : o.IsShort
  · obtain ⟨t, ht⟩ := short_cons ho hne r
    exact ⟨_, t, ht, by decide⟩
  · rw [toList_print_long ho hne]
    cases o.kind <;> exact ⟨_, _, rfl, by decide⟩

end Operation

/-! ### Fragments -/

namespace Fragment

theorem toList_print {f : Fragment} (hne : f.selections.items ≠ []) (r : List Char) :
    f.print.toList ++ r = "fragment ".toList ++ (f.name.toList ++
      (Selection.condition (some f.typeCondition) ++
        Selection.body f.directives f.selections r)) := by
  rw [Selection.body, ← toList_printSelections hne]
  simp [print, Selection.condition]

/-- **Fragments** are legible, whatever follows. -/
theorem print_cancel {f g : Fragment} (hf : f.wellFormed = true) (hg : g.wellFormed = true)
    {r s : List Char} (heq : f.print.toList ++ r = g.print.toList ++ s) :
    f.erase = g.erase ∧ r = s := by
  simp only [wellFormed, Bool.and_eq_true] at hf hg
  obtain ⟨⟨⟨hname, hcondition⟩, hdirectives⟩, hselections⟩ := hf
  obtain ⟨⟨⟨hname', hcondition'⟩, hdirectives'⟩, hselections'⟩ := hg
  obtain ⟨hne, -⟩ := wellFormedSelections_iff.mp hselections
  obtain ⟨hne', -⟩ := wellFormedSelections_iff.mp hselections'
  rw [toList_print hne, toList_print hne', List.append_cancel_left_eq] at heq
  obtain ⟨hnames, heq⟩ := name_cancel hname hname' ((breaks_cons _ _).mpr rfl)
    ((breaks_cons _ _).mpr rfl) heq
  obtain ⟨hconditions, hbody⟩ := Selection.condition_cancel
    (t := some f.typeCondition) (u := some g.typeCondition) hcondition hcondition' _ _ hne hne' heq
  obtain ⟨herase, hselections, hrest⟩ :=
    body_cancel hdirectives hdirectives' hselections hselections' hbody
  refine ⟨?_, hrest⟩
  simp [erase, hnames, Option.some.inj hconditions, herase, hselections]

end Fragment

/-! ### Documents -/

namespace Definition

/-- The script of definitions. -/
def script : Script Definition Definition where
  write := print
  see := erase
  Sound d := d.wellFormed = true
  Ends _ := True

theorem operation_ne_fragment {o : Operation} (ho : o.wellFormed = true) (f : Fragment)
    (r s : List Char) : o.print.toList ++ r ≠ f.print.toList ++ s := by
  simp only [Operation.wellFormed, Bool.and_eq_true] at ho
  obtain ⟨c, t, ht, hc⟩ := Operation.print_cons (wellFormedSelections_iff.mp ho.2).1 r
  rw [ht]
  simp [Fragment.print, hc]

theorem legible {d : Definition} (hd : d.wellFormed = true) : script.Legible d := by
  intro e r s he _ _ heq
  simp only [script] at he heq
  cases d with
  | operation o =>
    cases e with
    | operation p =>
      obtain ⟨herase, hrest⟩ := Operation.print_cancel hd he heq
      exact ⟨congrArg operation herase, hrest⟩
    | fragment g => exact absurd heq (operation_ne_fragment hd g r s)
  | fragment f =>
    cases e with
    | operation p => exact absurd heq.symm (operation_ne_fragment he f s r)
    | fragment g =>
      obtain ⟨herase, hrest⟩ := Fragment.print_cancel hd he heq
      exact ⟨congrArg fragment herase, hrest⟩

theorem separates : script.Separates " " (· = []) where
  next _ _ _ := trivial
  last _ _ := trivial
  apart a t r _ hr := by
    rw [hr]
    simp

theorem print_ne_nil {d : Definition} (hd : d.wellFormed = true) (r : List Char) :
    d.print.toList ++ r ≠ [] := by
  cases d with
  | operation o =>
    simp only [wellFormed, Operation.wellFormed, Bool.and_eq_true] at hd
    obtain ⟨c, t, ht, -⟩ := Operation.print_cons (wellFormedSelections_iff.mp hd.2).1 r
    simp [print, ht]
  | fragment f => simp [print, Fragment.print]

end Definition

/-- **Printing tells documents apart**: two documents that are well formed and print the same are
equal. -/
theorem Document.beq_of_print_eq {a b : Document} (ha : a.wellFormed = true)
    (hb : b.wellFormed = true) (h : a.print = b.print) : (a == b) = true := by
  rw [wellFormed, List.all_eq_true] at ha hb
  obtain ⟨hdefinitions, -⟩ := Definition.separates.listed
    (fun d t r hd hr => hr ▸ Definition.print_ne_nil hd t)
    (fun d hd => ⟨ha d hd, Definition.legible (ha d hd)⟩) hb (r := []) (s := []) rfl rfl
    (congrArg (fun text : String => text.toList ++ []) h)
  rw [beq_iff_erase, erase, erase]
  exact congrArg (fun items => (⟨⟨0, items⟩⟩ : Document)) hdefinitions

/-- A query with a variable and most forms of selections and values, and a fragment that is called
`on`. All blocks have the given label. -/
def sampleDocument (label : Nat) : Document :=
  ⟨label, [
    .operation ⟨.query, some "q",
      ⟨label, [⟨"v", .nonNull (.list (.named "Int")), .list [.int "-1", .null], ⟨label, []⟩⟩]⟩,
      ⟨label, [⟨"d", ⟨label, [⟨"x", .object [("y", .float "1.5e3"), ("z", .var "v")]⟩]⟩⟩]⟩,
      ⟨label, [
        .field ⟨some "a", "b", ⟨label, [⟨"t", .str "\"\n"⟩]⟩, ⟨label, []⟩⟩
          ⟨label, [.field ⟨none, "c", ⟨label, []⟩, ⟨label, []⟩⟩ ⟨label, []⟩]⟩,
        .inline none ⟨label, []⟩ ⟨label, [.spread "on" ⟨label, []⟩]⟩]⟩⟩,
    .fragment ⟨"on", "T", ⟨label, []⟩,
      ⟨label, [.field ⟨none, "c", ⟨label, []⟩, ⟨label, []⟩⟩ ⟨label, []⟩]⟩⟩]⟩

theorem Document.beq_of_print_eq_sample :
    (sampleDocument 1).wellFormed = true ∧ (sampleDocument 2).wellFormed = true ∧
      (sampleDocument 1).print = (sampleDocument 2).print ∧
        (sampleDocument 1 == sampleDocument 2) = true :=
  have hprint : (sampleDocument 1).print = (sampleDocument 2).print := by
    rw [← print_erase, ← print_erase (sampleDocument 2)]
    rfl
  ⟨by decide, by decide, hprint, beq_of_print_eq (by decide) (by decide) hprint⟩

end Arborist.Query
