import Arborist.Query.Print
import Arborist.Query.Sharing
import Mathlib

/-!
# Nodes that read the same

Nodes are compared by what they say. `Element.beq_iff_erase` says that this is equality of what is
left when the labels of the blocks are forgotten, and `Element.print_erase` that the printed form
does not depend on labels either. So nodes that are equal as `==` has it print the same
(`Element.print_eq_of_beq`).

Both are proved kind by kind, from values up to documents; selections and values go by mutual
recursion over a node and the list of nodes below it.
-/

namespace Arborist.Query

/-! ### Equality -/

/-- Lists are equal when their members are, and members are compared by what `see` shows. -/
theorem list_beq_iff {α γ : Type} [BEq α] {see : α → γ} {as : List α}
    (h : ∀ a ∈ as, ∀ b, (a == b) = true ↔ see a = see b) (bs : List α) :
    (as == bs) = true ↔ as.map see = bs.map see := by
  induction as generalizing bs with
  | nil => cases bs <;> simp
  | cons a as ih =>
    cases bs with
    | nil => simp
    | cons b bs =>
      rw [List.cons_beq_cons, Bool.and_eq_true, h a List.mem_cons_self b,
        ih (fun a ha => h a (List.mem_cons_of_mem _ ha)) bs, List.map_cons, List.map_cons,
        List.cons_eq_cons]

/-- Blocks are equal when their lists of nodes are. -/
theorem Block.beq_iff {α γ : Type} [BEq α] (see : α → γ)
    (h : ∀ a b : α, (a == b) = true ↔ see a = see b) (x y : Block α) :
    (x == y) = true ↔ x.items.map see = y.items.map see :=
  list_beq_iff (fun a _ => h a) y.items

namespace Value

mutual

theorem beq_iff : ∀ a b : Value, beq a b = true ↔ a = b
  | .null, b => by cases b <;> simp [beq]
  | .var _, b => by cases b <;> simp [beq]
  | .str _, b => by cases b <;> simp [beq]
  | .float _, b => by cases b <;> simp [beq]
  | .int _, b => by cases b <;> simp [beq]
  | .bool _, b => by cases b <;> simp [beq]
  | .enum _, b => by cases b <;> simp [beq]
  | .list as, b => by cases b <;> simp [beq, beqList_iff as]
  | .object as, b => by cases b <;> simp [beq, beqFields_iff as]

theorem beqList_iff : ∀ as bs : List Value, beqList as bs = true ↔ as = bs
  | [], bs => by cases bs <;> simp [beqList]
  | a :: as, bs => by cases bs <;> simp [beqList, beq_iff a, beqList_iff as]

theorem beqFields_iff : ∀ as bs : List (String × Value), beqFields as bs = true ↔ as = bs
  | [], bs => by cases bs <;> simp [beqFields]
  | (_, a) :: as, bs => by
    cases bs <;> simp [beqFields, beq_iff a, beqFields_iff as, Prod.ext_iff]

end

instance : LawfulBEq Value where
  eq_of_beq := (beq_iff _ _).mp
  rfl := (beq_iff _ _).mpr rfl

end Value

theorem Argument.beq_iff (a b : Argument) : (a == b) = true ↔ a = b := by
  obtain ⟨n, v⟩ := a
  obtain ⟨m, w⟩ := b
  show (n == m && v == w) = true ↔ _
  simp

theorem Directive.beq_iff_erase (a b : Directive) : (a == b) = true ↔ a.erase = b.erase := by
  obtain ⟨n, as⟩ := a
  obtain ⟨m, bs⟩ := b
  show (n == m && as == bs) = true ↔ _
  simp [Directive.erase, Block.erase, Block.beq_iff id Argument.beq_iff]

theorem beq_iff_eraseDirectives (a b : Block Directive) :
    (a == b) = true ↔ eraseDirectives a = eraseDirectives b := by
  simp [eraseDirectives, Block.beq_iff _ Directive.beq_iff_erase]

theorem Field.beq_iff_erase (a b : Field) : (a == b) = true ↔ a.erase = b.erase := by
  obtain ⟨a', n, as, ds⟩ := a
  obtain ⟨b', m, bs, es⟩ := b
  show (a' == b' && (n == m && (as == bs && ds == es))) = true ↔ _
  simp [Field.erase, Block.erase, Block.beq_iff id Argument.beq_iff,
    beq_iff_eraseDirectives]

namespace Selection

mutual

theorem beq_iff_erase : ∀ a b : Selection, beq a b = true ↔ a.erase = b.erase
  | .field _ ⟨_, as⟩, b => by
    cases b <;> simp [beq, erase, Field.beq_iff_erase, beqList_iff_erase as]
  | .spread .., b => by
    cases b <;> simp [beq, erase, beq_iff_eraseDirectives]
  | .inline _ _ ⟨_, as⟩, b => by
    cases b <;> simp [beq, erase, beq_iff_eraseDirectives, beqList_iff_erase as, and_assoc]

theorem beqList_iff_erase : ∀ as bs : List Selection,
    beqList as bs = true ↔ eraseList as = eraseList bs
  | [], bs => by cases bs <;> simp [beqList, eraseList]
  | a :: as, bs => by
    cases bs <;> simp [beqList, eraseList, beq_iff_erase a, beqList_iff_erase as]

end

end Selection

theorem Selection.eraseList_eq_map (items : List Selection) :
    eraseList items = items.map erase := by
  induction items with
  | nil => rfl
  | cons s items ih => rw [eraseList, ih, List.map_cons]

theorem Selection.erase_field (f : Field) (b : Block Selection) :
    (Selection.field f b).erase = .field f.erase (eraseSelections b) := rfl

theorem Selection.erase_inline (t : Option String) (ds : Block Directive) (b : Block Selection) :
    (Selection.inline t ds b).erase = .inline t (eraseDirectives ds) (eraseSelections b) := rfl

theorem beq_iff_eraseSelections (a b : Block Selection) :
    (a == b) = true ↔ eraseSelections a = eraseSelections b := by
  simp [eraseSelections, Selection.eraseList_eq_map, Block.beq_iff _ Selection.beq_iff_erase]

theorem VariableDefinition.beq_iff_erase (a b : VariableDefinition) :
    (a == b) = true ↔ a.erase = b.erase := by
  obtain ⟨n, t, v, ds⟩ := a
  obtain ⟨m, u, w, es⟩ := b
  show (n == m && (t == u && (v == w && ds == es))) = true ↔ _
  simp [VariableDefinition.erase, beq_iff_eraseDirectives]

theorem Operation.beq_iff_erase (a b : Operation) : (a == b) = true ↔ a.erase = b.erase := by
  obtain ⟨k, n, vs, ds, ss⟩ := a
  obtain ⟨l, m, ws, es, ts⟩ := b
  show (k == l && (n == m && (vs == ws && (ds == es && ss == ts)))) = true ↔ _
  simp [Operation.erase, Block.beq_iff _ VariableDefinition.beq_iff_erase,
    beq_iff_eraseDirectives, beq_iff_eraseSelections]

theorem Fragment.beq_iff_erase (a b : Fragment) : (a == b) = true ↔ a.erase = b.erase := by
  obtain ⟨n, t, ds, ss⟩ := a
  obtain ⟨m, u, es, ts⟩ := b
  show (n == m && (t == u && (ds == es && ss == ts))) = true ↔ _
  simp [Fragment.erase, beq_iff_eraseDirectives, beq_iff_eraseSelections]

theorem Definition.beq_iff_erase : ∀ a b : Definition, (a == b) = true ↔ a.erase = b.erase
  | .operation a, .operation b =>
    (Operation.beq_iff_erase a b).trans (Definition.operation.injEq ..).symm.to_iff
  | .fragment a, .fragment b =>
    (Fragment.beq_iff_erase a b).trans (Definition.fragment.injEq ..).symm.to_iff
  | .operation _, .fragment _ | .fragment _, .operation _ => ⟨nofun, nofun⟩

theorem Document.beq_iff_erase (a b : Document) : (a == b) = true ↔ a.erase = b.erase := by
  obtain ⟨as⟩ := a
  obtain ⟨bs⟩ := b
  show (as == bs) = true ↔ _
  simp [Document.erase, Block.beq_iff _ Definition.beq_iff_erase]

/-- Nodes are **equal** if they are the same when the labels of their blocks are forgotten. -/
theorem Element.beq_iff_erase (a b : Element) : (a == b) = true ↔ a.erase = b.erase := by
  cases a <;> cases b
  case document.document a b =>
    exact (Document.beq_iff_erase a b).trans (Element.document.injEq ..).symm.to_iff
  case definition.definition a b =>
    exact (Definition.beq_iff_erase a b).trans (Element.definition.injEq ..).symm.to_iff
  case variableDefinition.variableDefinition a b =>
    exact (VariableDefinition.beq_iff_erase a b).trans
      (Element.variableDefinition.injEq ..).symm.to_iff
  case selection.selection a b =>
    exact (Selection.beq_iff_erase a b).trans (Element.selection.injEq ..).symm.to_iff
  case directive.directive a b =>
    exact (Directive.beq_iff_erase a b).trans (Element.directive.injEq ..).symm.to_iff
  case argument.argument a b =>
    exact (Argument.beq_iff a b).trans (Element.argument.injEq ..).symm.to_iff
  all_goals exact ⟨nofun, nofun⟩

/-! ### Printed forms -/

@[simp] theorem Directive.print_erase (d : Directive) : d.erase.print = d.print := rfl

@[simp] theorem printDirectives_erase (b : Block Directive) :
    printDirectives (eraseDirectives b) = printDirectives b := by
  simp [printDirectives, eraseDirectives, Function.comp_def]

@[simp] theorem Field.print_erase (f : Field) : f.erase.print = f.print := by
  simp [Field.print, Field.erase, printArguments, Block.erase]

namespace Selection

mutual

@[simp] theorem print_erase : ∀ s : Selection, s.erase.print = s.print
  | .field _ ⟨_, []⟩ => by simp [erase, eraseList, print]
  | .field _ ⟨_, s :: items⟩ => by
    simp [erase, eraseList, print, print_erase s, printList_eraseList items]
  | .spread .. => by simp [erase, print]
  | .inline _ _ ⟨_, items⟩ => by simp [erase, print, printList_eraseList items]

@[simp] theorem printList_eraseList : ∀ items : List Selection,
    printList (eraseList items) = printList items
  | [] => rfl
  | s :: items => by rw [eraseList, printList, printList, print_erase s, printList_eraseList items]

end

end Selection

@[simp] theorem printSelections_erase (b : Block Selection) :
    printSelections (eraseSelections b) = printSelections b := by
  simp [printSelections, eraseSelections]

@[simp] theorem VariableDefinition.print_erase (v : VariableDefinition) :
    v.erase.print = v.print := by
  rw [VariableDefinition.print, VariableDefinition.erase, printDirectives_erase]
  rfl

@[simp] theorem Operation.print_erase (o : Operation) : o.erase.print = o.print := by
  have hvariables : printVariables ⟨0, o.variableDefinitions.items.map .erase⟩ =
      printVariables o.variableDefinitions := by
    simp [printVariables, Function.comp_def]
  have hdirectives : (eraseDirectives o.directives).items.isEmpty = o.directives.items.isEmpty :=
    List.isEmpty_map
  simp only [Operation.print, Operation.erase, printDirectives_erase, printSelections_erase,
    hvariables, hdirectives, List.isEmpty_map]

@[simp] theorem Fragment.print_erase (f : Fragment) : f.erase.print = f.print := by
  simp [Fragment.print, Fragment.erase]

@[simp] theorem Definition.print_erase : ∀ d : Definition, d.erase.print = d.print
  | .operation o => o.print_erase
  | .fragment f => f.print_erase

@[simp] theorem Document.print_erase (d : Document) : d.erase.print = d.print := by
  simp [Document.print, Document.erase, Function.comp_def]

/-- The **printed form** of a node doesn't depend on how the node is stored. -/
theorem Element.print_erase : ∀ e : Element, e.erase.print = e.print
  | .document d => d.print_erase
  | .definition d => d.print_erase
  | .variableDefinition v => v.print_erase
  | .selection s => s.print_erase
  | .directive d => d.print_erase
  | .argument _ => rfl

theorem Element.print_eq_of_beq {a b : Element} (h : (a == b) = true) : a.print = b.print := by
  rw [← print_erase a, (beq_iff_erase a b).mp h, print_erase b]

end Arborist.Query
