import Arborist.Proofs.DependencyOrder
import Arborist.Proofs.Scoring

/-!
# The complexity of an operation is that of its inlining

Fragments are scored one after the other, and a spread counts as much as its fragment. The result is
what the operation scores **once all spreads are replaced**: it makes no difference that the score
of a fragment was cut off at the largest score before it was added.

* `Scored` are the scores of some selections with every spread replaced.
* `tallyList_tallied`: looking up right scores of fragments comes to the same.
* `scoreFragments_scored`: fragments in order get right scores.
* `ofOperation_scored`: there is a complexity exactly when no fragment spreads itself and every
  spread names a fragment, and then it is the sum of these scores. If every field counts one, it is
  the number of fields of the inlined operation.
-/

namespace Arborist

open Query

/-! ### Counting fields -/

namespace Query.Selection

mutual

/-- The number of fields in a selection. -/
def fieldCount : Selection → Nat
  | .field _ ⟨_, items⟩ => 1 + fieldCountList items
  | .spread .. => 0
  | .inline _ _ ⟨_, items⟩ => fieldCountList items
termination_by structural selection => selection

/-- The number of fields in a list of selections. -/
def fieldCountList : List Selection → Nat
  | [] => 0
  | selection :: rest => selection.fieldCount + fieldCountList rest
termination_by structural items => items

end

theorem fieldCountList_append (items items' : List Selection) :
    fieldCountList (items ++ items') = fieldCountList items + fieldCountList items' := by
  induction items with
  | nil => rw [List.nil_append, fieldCountList, Nat.zero_add]
  | cons s items ih => rw [List.cons_append, fieldCountList, fieldCountList, ih, Nat.add_assoc]

end Query.Selection

namespace Analysis

theorem sumScores_cons (score : Nat) (scores : List Nat) :
    sumScores (score :: scores) = addScores score (sumScores scores) := by
  rw [sumScores_eq, sumScores_eq, addScores, List.sum_cons]
  omega

theorem sumScores_append (scores others : List Nat) :
    sumScores (scores ++ others) = addScores (sumScores scores) (sumScores others) := by
  rw [sumScores_eq, sumScores_eq, sumScores_eq, addScores, List.sum_append]
  omega

theorem eq_ok_of_toOption {result : Result} {n : Nat} (h : result.toOption = some n) :
    result = .ok n := by
  cases result with
  | ok m => exact congrArg _ (Option.some.inj h)
  | error i => cases h

namespace Complexity

/-! ### Scores with spreads replaced -/

section Scored

variable (calculator : Calculator) (vars : Option Variables)
  (fragment? : String → Option (Ref Fragment))

/-- The scores of some selections, with every spread **replaced** by the selections of its fragment:
a field has the score that the calculator gives it with the sum of the scores of its selections, and
an inline fragment has that sum. -/
inductive Scored : List Selection → List Nat → Prop
  | nil : Scored [] []
  | field {field : Field} {b : Block Selection} {rest : List Selection} {inner scores : List Nat}
      (hb : Scored b.items inner) (hrest : Scored rest scores) :
      Scored (.field field b :: rest)
        (calculator { field, selections := b, inner := sumScores inner, vars } :: scores)
  | inline {t : Option String} {ds : Block Directive} {b : Block Selection} {rest : List Selection}
      {inner scores : List Nat} (hb : Scored b.items inner) (hrest : Scored rest scores) :
      Scored (.inline t ds b :: rest) (sumScores inner :: scores)
  | spread {name : String} {ds : Block Directive} {f : Ref Fragment} {rest : List Selection}
      {inner scores : List Nat} (hf : fragment? name = some f)
      (hitems : Scored f.value.selections.items inner) (hrest : Scored rest scores) :
      Scored (.spread name ds :: rest) (inner ++ scores)

variable {calculator vars fragment?} {items items' : List Selection} {scores scores' : List Nat}

theorem Scored.append (h : Scored calculator vars fragment? items scores)
    (h' : Scored calculator vars fragment? items' scores') :
    Scored calculator vars fragment? (items ++ items') (scores ++ scores') := by
  induction h with
  | nil => exact h'
  | field hb _ _ ih => exact .field hb ih
  | inline hb _ _ ih => exact .inline hb ih
  | spread hf hitems _ _ ih =>
    rw [List.append_assoc]
    exact .spread hf hitems ih

/-- Selections have at most one list of scores. -/
theorem Scored.unique (h : Scored calculator vars fragment? items scores)
    (h' : Scored calculator vars fragment? items scores') : scores = scores' := by
  induction h generalizing scores' with
  | nil =>
    cases h'
    rfl
  | field _ _ ihb ihrest =>
    cases h' with
    | field hb hrest => rw [ihb hb, ihrest hrest]
  | inline _ _ ihb ihrest =>
    cases h' with
    | inline hb hrest => rw [ihb hb, ihrest hrest]
  | spread hf _ _ ihitems ihrest =>
    cases h' with
    | spread hf' hitems hrest =>
      obtain rfl := Option.some.inj (hf.symm.trans hf')
      rw [ihitems hitems, ihrest hrest]

/-- What has scores has an inlining. -/
theorem Scored.inlines (h : Scored calculator vars fragment? items scores) :
    ∃ inlined, Inlines fragment? items inlined := by
  induction h with
  | nil => exact ⟨[], .nil⟩
  | field _ _ ihb ihrest =>
    obtain ⟨inner, hb⟩ := ihb
    obtain ⟨rest, hrest⟩ := ihrest
    exact ⟨_, .field hb hrest⟩
  | inline _ _ ihb ihrest =>
    obtain ⟨inner, hb⟩ := ihb
    obtain ⟨rest, hrest⟩ := ihrest
    exact ⟨_, .inline hb hrest⟩
  | spread hf _ _ ihitems ihrest =>
    obtain ⟨inner, hitems⟩ := ihitems
    obtain ⟨rest, hrest⟩ := ihrest
    exact ⟨_, .spread hf hitems hrest⟩

/-- **If every field counts one**, then the scores add up to the number of fields of the inlining,
as far as scores go. -/
theorem Scored.sumScores_standard {inlined : List Selection}
    (h : Scored .standard vars fragment? items scores)
    (hinlines : Inlines fragment? items inlined) :
    sumScores scores = min (Selection.fieldCountList inlined) maxScore := by
  induction h generalizing inlined with
  | nil =>
    cases hinlines
    rfl
  | field _ _ ihb ihrest =>
    cases hinlines with
    | field hb hrest =>
      rw [sumScores_cons, ihrest hrest, ihb hb, Selection.fieldCountList, Selection.fieldCount,
        addScores]
      simp only [Calculator.standard, addScores]
      omega
  | inline _ _ ihb ihrest =>
    cases hinlines with
    | inline hb hrest =>
      rw [sumScores_cons, ihrest hrest, ihb hb, Selection.fieldCountList, Selection.fieldCount,
        addScores]
      omega
  | spread hf _ _ ihitems ihrest =>
    cases hinlines with
    | spread hf' hitems hrest =>
      obtain rfl := Option.some.inj (hf.symm.trans hf')
      -- the fragment's scores stand among the others here, and are cut off only once
      rw [sumScores_append, ihitems hitems, ihrest hrest,
        Selection.fieldCountList_append, addScores]
      omega

end Scored

/-! ### Looking up right scores -/

section Tallied

variable (calculator : Calculator) (vars : Option Variables)
  (fragment? : String → Option (Ref Fragment)) (scores : Dict Nat)

/-- The scores of fragments are **right**: each is the sum of the scores of the fragment's
selections with every spread replaced. -/
def Right : Prop :=
  ∀ name score, scores.find? name = some score → ∃ f inner, fragment? name = some f ∧
    Scored calculator vars fragment? f.value.selections.items inner ∧ score = sumScores inner

/-- What looking up the scores of fragments comes to for some selections: scores with the same sum
as if the spreads were replaced, or an error that names a fragment without a score. -/
def Tallied (items : List Selection) : Except Error (List Nat) → Prop
  | .ok inner => (∃ replaced, Scored calculator vars fragment? items replaced ∧
        sumScores inner = sumScores replaced) ∧
      ∀ name ∈ Selection.spreadsList items, ∃ score, scores.find? name = some score
  | .error e => ∃ name ∈ Selection.spreadsList items, scores.find? name = none ∧
      e = .unknownFragment name

variable {calculator vars fragment? scores}

namespace Tallied

variable {items : List Selection} {inner : Except Error (List Nat)}

/-- A node whose score goes by the sum of those of its selections. -/
theorem below {s : Selection} (value : Nat → Nat)
    (hspreads : Selection.spreadsList [s] = Selection.spreadsList items)
    (hscored : ∀ {replaced}, Scored calculator vars fragment? items replaced →
      Scored calculator vars fragment? [s] [value (sumScores replaced)])
    (h : Tallied calculator vars fragment? scores items inner) :
    Tallied calculator vars fragment? scores [s]
      ((fun score => [score]) <$> (do
        let inner ← inner
        pure (value (sumScores inner)))) := by
  cases inner with
  | error e =>
    obtain ⟨name, hname, hmissing⟩ := h
    exact ⟨name, hspreads ▸ hname, hmissing⟩
  | ok inner =>
    obtain ⟨⟨replaced, hreplaced, hsum⟩, hfound⟩ := h
    exact ⟨⟨_, hscored hreplaced, congrArg (fun n => sumScores [value n]) hsum⟩, hspreads ▸ hfound⟩

theorem cons {s : Selection} {score : Except Error Nat} {others : Except Error (List Nat)}
    (h : Tallied calculator vars fragment? scores [s] ((fun score => [score]) <$> score))
    (hitems : Tallied calculator vars fragment? scores items others) :
    Tallied calculator vars fragment? scores (s :: items) (do
      let score ← score
      let others ← others
      pure (score :: others)) := by
  have hspreads : Selection.spreadsList (s :: items) =
      Selection.spreadsList [s] ++ Selection.spreadsList items := by
    simp [Selection.spreadsList]
  cases score with
  | error e =>
    obtain ⟨name, hname, hmissing⟩ := h
    exact ⟨name, hspreads ▸ List.mem_append_left _ hname, hmissing⟩
  | ok score =>
    cases others with
    | error e =>
      obtain ⟨name, hname, hmissing⟩ := hitems
      exact ⟨name, hspreads ▸ List.mem_append_right _ hname, hmissing⟩
    | ok others =>
      obtain ⟨⟨first, hfirst, hscore⟩, hfound⟩ := h
      obtain ⟨⟨rest, hrest, hothers⟩, hfound'⟩ := hitems
      refine ⟨⟨first ++ rest, hfirst.append hrest, ?_⟩, fun name hname => ?_⟩
      · rw [← List.singleton_append, sumScores_append, hscore, hothers, sumScores_append]
      · rw [hspreads] at hname
        exact (List.mem_append.mp hname).elim (hfound name) (hfound' name)

end Tallied

mutual

theorem tally_tallied (hright : Right calculator vars fragment? scores) : ∀ s : Selection,
    Tallied calculator vars fragment? scores [s]
      ((fun score => [score]) <$> tally calculator vars scores s)
  | .field field ⟨label, items⟩ => by
    rw [tally]
    exact (tallyList_tallied hright items).below
      (fun inner => calculator { field, selections := ⟨label, items⟩, inner, vars })
      (List.append_nil _) fun hitems => Scored.field (b := ⟨label, items⟩) hitems .nil
  | .spread name ds => by
    rw [tally]
    cases hname : scores.find? name with
    | none => exact ⟨name, List.mem_singleton_self name, hname, rfl⟩
    | some score =>
      obtain ⟨f, inner, hf, hinner, hscore⟩ := hright name score hname
      refine ⟨⟨inner ++ [], .spread hf hinner .nil, ?_⟩, fun n hn => ?_⟩
      · rw [List.append_nil, hscore, sumScores_eq, sumScores_eq, List.sum_singleton]
        omega
      · exact ⟨score, List.mem_singleton.mp hn ▸ hname⟩
  | .inline t ds ⟨label, items⟩ => by
    rw [tally]
    exact (tallyList_tallied hright items).below (fun inner => inner) (List.append_nil _)
      fun hitems => Scored.inline (b := ⟨label, items⟩) hitems .nil

/-- **Looking up right scores** comes to the same as replacing spreads. -/
theorem tallyList_tallied (hright : Right calculator vars fragment? scores) :
    ∀ items : List Selection,
      Tallied calculator vars fragment? scores items (tallyList calculator vars scores items)
  | [] => ⟨⟨[], .nil, rfl⟩, fun _ h => absurd h List.not_mem_nil⟩
  | s :: items => by
    rw [tallyList]
    exact (tally_tallied hright s).cons (tallyList_tallied hright items)

end

end Tallied

/-! ### Fragments one after the other -/

section Definitions

variable {calculator : Calculator} {vars : Option Variables} {scores : Dict Nat}

/-- The score of a fragment, if it shares no nodes. -/
theorem score_fragment {f : Ref Fragment} (hnodup : (f.ofFragment.within.map Ref.id).Nodup) :
    score calculator vars scores (f.value.size + 1) f.ofFragment =
      (sumScores <$> tallyList calculator vars scores f.value.selections.items).mapError .failed :=
  score_eq_tallyNode (Nat.le_succ _) hnodup

/-- The score of an operation, if it shares no nodes. -/
theorem score_operation {o : Ref Operation} (hnodup : (o.ofOperation.within.map Ref.id).Nodup) :
    score calculator vars scores (o.value.size + 1) o.ofOperation =
      (sumScores <$> tallyList calculator vars scores o.value.selections.items).mapError .failed :=
  score_eq_tallyNode (Nat.le_succ _) hnodup

variable (calculator vars) (fragments : Dict (Ref Fragment))

/-- What scoring some fragments comes to: right scores of them all, or an error that names a
fragment which one of them spreads and which is not defined. -/
def FragmentsScored (order : List (Ref Fragment)) : Except Interrupt (Dict Nat) → Prop
  | .ok scores => Right calculator vars (Dict.find? · fragments) scores ∧ ∀ f ∈ order,
      (∃ score, scores.find? f.value.name = some score) ∧
        ∀ name ∈ f.value.spreads, ∃ g, Dict.find? name fragments = some g
  | .error i => ∃ f ∈ order, ∃ name ∈ f.value.spreads, Dict.find? name fragments = none ∧
      i = .failed (.unknownFragment name)

variable {calculator vars fragments} {order : List (Ref Fragment)} {f : Ref Fragment}

/-- A name without a score is **not defined**, if every fragment of that name was scored. -/
theorem FragmentsScored.not_defined
    (h : FragmentsScored calculator vars fragments order (.ok scores))
    (hnamed : SelfNamed fragments) {name : String}
    (hscored : ∀ g, Dict.find? name fragments = some g → g ∈ order)
    (hmissing : scores.find? name = none) : Dict.find? name fragments = none := by
  cases hg : Dict.find? name fragments with
  | none => rfl
  | some g =>
    obtain ⟨score, hscore⟩ := (h.2 g (hscored g hg)).1
    rw [hnamed.name_of_find? hg, hmissing] at hscore
    cases hscore

/-- **One more fragment** after all that it spreads. -/
theorem FragmentsScored.snoc (h : FragmentsScored calculator vars fragments order (.ok scores))
    (hnamed : SelfNamed fragments)
    (hf : Dict.find? f.value.name fragments = some f)
    (hafter : ∀ name ∈ f.value.spreads, ∀ g, Dict.find? name fragments = some g → g ∈ order)
    (hnodup : (f.ofFragment.within.map Ref.id).Nodup) :
    FragmentsScored calculator vars fragments (order ++ [f])
      (do
        let s ← score calculator vars scores (f.value.size + 1) f.ofFragment
        pure (scores.insert f.value.name s)) := by
  have ⟨hright, horder⟩ := h
  have htallied := tallyList_tallied hright f.value.selections.items
  rw [score_fragment hnodup]
  cases hinner : tallyList calculator vars scores f.value.selections.items with
  | error e =>
    rw [hinner] at htallied
    obtain ⟨name, hspread, hmissing, rfl⟩ := htallied
    exact ⟨f, List.mem_append_right _ List.mem_cons_self, name, hspread,
      h.not_defined hnamed (hafter name hspread) hmissing, rfl⟩
  | ok inner =>
    rw [hinner] at htallied
    obtain ⟨⟨replaced, hreplaced, hsum⟩, hfound⟩ := htallied
    change FragmentsScored calculator vars fragments (order ++ [f])
      (.ok (scores.insert f.value.name (sumScores inner)))
    refine ⟨fun name score hscore => ?_, fun g hg => ?_⟩
    · rw [Dict.find?_insert] at hscore
      split at hscore
      · next heq =>
        subst heq
        obtain rfl := Option.some.inj hscore
        exact ⟨f, replaced, hf, hreplaced, hsum⟩
      · exact hright name score hscore
    · rcases List.mem_append.mp hg with hg | hg
      · obtain ⟨⟨score, hscore⟩, hspreads⟩ := horder g hg
        refine ⟨?_, hspreads⟩
        rw [Dict.find?_insert]
        split
        · exact ⟨_, rfl⟩
        · exact ⟨score, hscore⟩
      · obtain rfl := List.mem_singleton.mp hg
        refine ⟨⟨sumScores inner, by rw [Dict.find?_insert, if_pos rfl]⟩, fun name hspread => ?_⟩
        obtain ⟨score, hscore⟩ := hfound name hspread
        obtain ⟨g, _, hg, -⟩ := hright name score hscore
        exact ⟨g, hg⟩

/-- **Fragments in order** get right scores. -/
theorem scoreFragments_scored (h : Ordered fragments order)
    (hnamed : SelfNamed fragments)
    (hnodup : ∀ {name f}, Dict.find? name fragments = some f →
      (f.ofFragment.within.map Ref.id).Nodup) :
    FragmentsScored calculator vars fragments order (scoreFragments calculator vars order) := by
  induction h with
  | nil => exact ⟨nofun, fun _ h => absurd h List.not_mem_nil⟩
  | @snoc order f before found _ after ih =>
    simp only [scoreFragments, List.foldlM_append, List.foldlM_cons, List.foldlM_nil, bind_pure]
    change FragmentsScored calculator vars fragments (order ++ [f])
      (scoreFragments calculator vars order >>= fun scores => _)
    cases hscores : scoreFragments calculator vars order with
    | error i =>
      rw [hscores] at ih
      obtain ⟨g, hg, hmissing⟩ := ih
      exact ⟨g, List.mem_append_left _ hg, hmissing⟩
    | ok scores =>
      rw [hscores] at ih
      exact ih.snoc hnamed found after (hnodup found)

end Definitions

/-! ### Results -/

/-- An operation **can be scored**: every spread in it and in the fragments of its document, be they
used or not, names a fragment, and no fragment spreads itself. -/
structure Scorable (document : Document) (operation : Ref Operation) : Prop where
  operation : ∀ name ∈ Selection.spreadsList operation.value.selections.items,
    ∃ f, document.fragment? name = some f
  fragment : ∀ name f, document.fragment? name = some f → ∀ other ∈ f.value.spreads,
    ∃ g, document.fragment? other = some g
  acyclic : ∀ name f, document.fragment? name = some f →
    ¬Spreads document.fragment? f.value.selections.items name

/-- An error that says **why** an operation can't be scored. -/
inductive Unscorable (document : Document) (operation : Ref Operation) : Error → Prop
  | operation {name : String}
      (hspread : name ∈ Selection.spreadsList operation.value.selections.items)
      (hname : document.fragment? name = none) :
      Unscorable document operation (.unknownFragment name)
  | fragment {name other : String} {f : Ref Fragment} (hf : document.fragment? other = some f)
      (hspread : name ∈ f.value.spreads) (hname : document.fragment? name = none) :
      Unscorable document operation (.unknownFragment name)
  | cycle {name : String} {f : Ref Fragment} (hf : document.fragment? name = some f)
      (hself : Spreads document.fragment? f.value.selections.items name) :
      Unscorable document operation (.fragmentCycle name)

section Result

variable {document : Document} {operation : Ref Operation} {calculator : Calculator}
  {vars : Option Variables}

theorem Unscorable.not_scorable {e : Error} (h : Unscorable document operation e) :
    ¬Scorable document operation := by
  intro hscorable
  cases h with
  | operation hspread hname =>
    obtain ⟨f, hf⟩ := hscorable.operation _ hspread
    simp [hname] at hf
  | fragment hf hspread hname =>
    obtain ⟨g, hg⟩ := hscorable.fragment _ _ hf _ hspread
    simp [hname] at hg
  | cycle hf hself => exact hscorable.acyclic _ _ hf hself

/-- In an unshared document, no definition has a node twice. -/
theorem nodup_of_unshared (h : document.Unshared operation) :
    (operation.ofOperation.within.map Ref.id).Nodup ∧
      ∀ name f, Dict.find? name document.fragments = some f →
        (f.ofFragment.within.map Ref.id).Nodup := by
  rw [Document.Unshared, Document.nodes, List.map_flatMap] at h
  have heach := (List.nodup_flatMap.mp h).1
  refine ⟨heach _ List.mem_cons_self, fun name f hf => heach _ (List.mem_cons_of_mem _ ?_)⟩
  exact List.mem_map.mpr ⟨(name, f), Dict.mem_of_find? hf, rfl⟩

theorem coherentFragments_of_unshared (h : document.Unshared operation) :
    CoherentFragments document.fragments := fun e he =>
  .of_nodup ((nodup_of_unshared h).2 e.1 e.2
    (Dict.find?_of_mem_of_nodup document.selfNamed.nodup he))

/-- What an analysis comes to: a score of the operation, which can be scored, or the reason why it
can't. -/
def Assessed (calculator : Calculator) (vars : Option Variables) (document : Document)
    (operation : Ref Operation) : Result → Prop
  | .ok n => Scorable document operation ∧ ∃ scores,
      Scored calculator vars document.fragment? operation.value.selections.items scores ∧
        n = sumScores scores
  | .error i => ∃ e, i = .failed e ∧ Unscorable document operation e

/-- **The operation after all fragments**: in a document whose fragments are in order and have their
scores, it has a score as well, or it spreads a fragment that is not defined. -/
theorem score_operation_assessed {order : List (Ref Fragment)} {scores : Dict Nat}
    (h : document.Unshared operation) (hordered : Ordered document.fragments order)
    (hall : ∀ name f, Dict.find? name document.fragments = some f → f ∈ order)
    (hscored : FragmentsScored calculator vars document.fragments order (.ok scores)) :
    Assessed calculator vars document operation
      (score calculator vars scores (operation.value.size + 1) operation.ofOperation) := by
  have hlookup : (Dict.find? · document.fragments) = document.fragment? :=
    funext document.find?_fragments
  have ⟨hright, hfound⟩ := hscored
  have htallied := tallyList_tallied hright operation.value.selections.items
  rw [score_operation (nodup_of_unshared h).1]
  rw [hlookup] at hright htallied
  cases hinner : tallyList calculator vars scores operation.value.selections.items with
  | error e =>
    rw [hinner] at htallied
    obtain ⟨name, hspread, hmissing, rfl⟩ := htallied
    refine ⟨_, rfl, .operation hspread ?_⟩
    rw [← document.find?_fragments]
    exact hscored.not_defined document.selfNamed (hall name) hmissing
  | ok inner =>
    rw [hinner] at htallied
    obtain ⟨⟨replaced, hreplaced, hsum⟩, hspreads⟩ := htallied
    refine ⟨⟨fun name hspread => ?_, fun name f hf other hother => ?_, fun name f hf => ?_⟩,
      replaced, hreplaced, hsum⟩
    · obtain ⟨score, hscore⟩ := hspreads name hspread
      obtain ⟨f, _, hf, -⟩ := hright name score hscore
      exact ⟨f, hf⟩
    · rw [← document.find?_fragments] at hf
      obtain ⟨g, hg⟩ := (hfound f (hall name f hf)).2 other hother
      exact ⟨g, document.find?_fragments other ▸ hg⟩
    · rw [← document.find?_fragments] at hf
      have hacyclic := hordered.acyclic (hall name f hf)
      rwa [document.selfNamed.name_of_find? hf, hlookup] at hacyclic

theorem ofOperation_assessed (h : document.Unshared operation) :
    Assessed calculator vars document operation
      (ofOperation calculator vars document operation) := by
  have horder := inOrder_comesTo document.selfNamed (coherentFragments_of_unshared h)
  rw [ofOperation]
  cases hin : inOrder document.fragments with
  | error i =>
    rw [hin] at horder
    obtain ⟨name, f, hf, rfl, hself⟩ := horder
    rw [funext document.find?_fragments] at hself
    exact ⟨_, rfl, .cycle (document.find?_fragments name ▸ hf) hself⟩
  | ok order =>
    rw [hin] at horder
    obtain ⟨hordered, hall⟩ := horder
    -- first the fragments get their scores, one after the other, and then the operation
    have hscored : FragmentsScored calculator vars document.fragments order _ :=
      scoreFragments_scored hordered document.selfNamed fun hf => (nodup_of_unshared h).2 _ _ hf
    change Assessed calculator vars document operation
      (scoreFragments calculator vars order >>= fun scores => _)
    cases hscores : scoreFragments calculator vars order with
    | error i =>
      rw [hscores] at hscored
      obtain ⟨f, hf, name, hspread, hmissing, rfl⟩ := hscored
      have hf' := hordered.found_of_mem hf
      rw [document.find?_fragments] at hf' hmissing
      exact ⟨_, rfl, .fragment hf' hspread hmissing⟩
    | ok scores =>
      rw [hscores] at hscored
      exact score_operation_assessed h hordered hall hscored

/-- **The complexity of an operation is that of its inlining.** In a document without shared nodes
there is a complexity exactly when every spread in the operation and in the fragments of the
document names a fragment, and no fragment spreads itself. Then it is the sum of the scores of the
operation's selections with every spread replaced, and if every field counts one, it is the number
of fields of the one inlining of the operation, as far as scores go. Otherwise the error says what
is wrong. -/
theorem ofOperation_scored (calculator : Calculator) (vars : Option Variables) (document : Document)
    (operation : Ref Operation) (h : document.Unshared operation) :
    ((∃ n, ofOperation calculator vars document operation = .ok n) ↔ Scorable document operation) ∧
      (∀ n, ofOperation calculator vars document operation = .ok n → ∃ scores,
        (∀ other, Scored calculator vars document.fragment? operation.value.selections.items other ↔
          other = scores) ∧ n = sumScores scores) ∧
      (∀ n, ofOperation .standard vars document operation = .ok n → ∃ inlined,
        (∀ other, Inlines document.fragment? operation.value.selections.items other ↔
          other = inlined) ∧ n = min (Selection.fieldCountList inlined) maxScore) ∧
      (¬Scorable document operation → ∃ e,
        ofOperation calculator vars document operation = .error (.failed e) ∧
          Unscorable document operation e) := by
  have hassessed : Assessed calculator vars document operation _ := ofOperation_assessed h
  refine ⟨⟨fun ⟨n, hn⟩ => ?_, fun hscorable => ?_⟩, fun n hn => ?_, fun n hn => ?_, fun hnot => ?_⟩
  · rw [hn] at hassessed
    exact hassessed.1
  · cases hout : ofOperation calculator vars document operation with
    | ok n => exact ⟨n, rfl⟩
    | error i =>
      rw [hout] at hassessed
      obtain ⟨e, -, hunscorable⟩ := hassessed
      exact absurd hscorable hunscorable.not_scorable
  · rw [hn] at hassessed
    obtain ⟨-, scores, hscores, hsum⟩ := hassessed
    exact ⟨scores, fun other => ⟨fun hother => hother.unique hscores, fun heq => heq ▸ hscores⟩,
      hsum⟩
  · have hstandard : Assessed .standard vars document operation _ := ofOperation_assessed h
    rw [hn] at hstandard
    obtain ⟨-, scores, hscores, rfl⟩ := hstandard
    obtain ⟨inlined, hinlined⟩ := hscores.inlines
    exact ⟨inlined, fun other => ⟨fun hother => hother.unique hinlined, fun heq => heq ▸ hinlined⟩,
      hscores.sumScores_standard hinlined⟩
  · cases hout : ofOperation calculator vars document operation with
    | ok n =>
      rw [hout] at hassessed
      exact absurd hassessed.1 hnot
    | error i =>
      rw [hout] at hassessed
      obtain ⟨e, rfl, hunscorable⟩ := hassessed
      exact ⟨e, rfl, hunscorable⟩

end Result

/-! ### Fragments that double -/

/-- A fragment with the given selections. -/
def doublingFragment (name : String) (label : Nat) (items : List Selection) : Definition :=
  .fragment { name, typeCondition := "T", directives := .empty, selections := ⟨label, items⟩ }

/-- Two spreads of a fragment. -/
def twice (name : String) : List Selection :=
  [.spread name .empty, .spread name .empty]

/-- An operation that spreads a fragment twice. -/
def doublingQuery : Operation where
  kind := .query
  name := none
  variableDefinitions := .empty
  directives := .empty
  selections := ⟨1, twice "C"⟩

/-- A document in which every fragment spreads the next one twice, and the last one has a field. -/
def doublingDocument : Document where
  definitions := ⟨0, [.operation doublingQuery, doublingFragment "C" 2 (twice "B"),
    doublingFragment "B" 3 (twice "A"), doublingFragment "A" 4
      [.field { alias? := none, name := "x", arguments := .empty, directives := .empty } .empty]]⟩

/-- The operation of the document. -/
def doublingOperation : Ref Operation :=
  ⟨⟨0, 0⟩, doublingQuery⟩

theorem doubling_unshared : doublingDocument.Unshared doublingOperation := by
  unfold Document.Unshared
  decide

theorem ofOperation_doubling :
    ofOperation .standard none doublingDocument doublingOperation = .ok 8 := by
  rw [ofOperation, inOrder, Fragments.search, Fragments.names_document]
  exact eq_ok_of_toOption (by decide +kernel)

theorem ofOperation_scored_doubling : doublingDocument.Unshared doublingOperation ∧
    ofOperation .standard none doublingDocument doublingOperation = .ok 8 ∧ ∃ inlined,
      (∀ other, Inlines doublingDocument.fragment? doublingQuery.selections.items other ↔
        other = inlined) ∧ 8 = min (Selection.fieldCountList inlined) maxScore := by
  obtain ⟨-, -, hstandard, -⟩ :=
    ofOperation_scored .standard none doublingDocument doublingOperation doubling_unshared
  exact ⟨doubling_unshared, ofOperation_doubling, hstandard 8 ofOperation_doubling⟩

end Complexity

end Analysis

end Arborist
