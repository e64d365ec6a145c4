import Arborist.Proofs.Counterparts
import Arborist.Proofs.OperationComplexity

/-!
# Analyses and sharing

An analysis tells nodes apart by where they are stored, so it may tell documents apart that **read the
same** (`calculate_sharing`): a selection that is met again is not looked into once more. As long as
no node is shared, what a document reads is all that counts, for results and for errors
(`calculate_unshared`).

* `Twins` are fragments that read the same and share no nodes. Searches over twins list twins
  (`addInOrder_alike`), and twins get the same scores (`scoreFragments_congr`).
* `tallyList_congr`: selections that read the same have the same scores.
* `Complexity.ofOperation_congr` puts this together; `Depth.ofOperation_congr` is its companion for
  depths.
-/

namespace Arborist.Analysis

open Query

/-! ### Results that go together -/

/-- Two computations go **together** if they give related results, or end for the same reason. -/
inductive Together {α : Type} (R : α → α → Prop) :
    Except Interrupt α → Except Interrupt α → Prop
  | ok {a a' : α} (h : R a a') : Together R (.ok a) (.ok a')
  | error (i : Interrupt) : Together R (.error i) (.error i)

section Together

variable {α γ : Type} {R : α → α → Prop} {x x' : Except Interrupt α}

theorem Together.bind {S : γ → γ → Prop} {f f' : α → Except Interrupt γ} (h : Together R x x')
    (hnext : ∀ a a', R a a' → Together S (f a) (f' a')) : Together S (x >>= f) (x' >>= f') := by
  cases h with
  | ok h => exact hnext _ _ h
  | error i => exact .error i

theorem Together.foldlM {step step' : α → γ → Except Interrupt α} {list : List γ} {a a' : α}
    (hstep : ∀ c ∈ list, ∀ a a', R a a' → Together R (step a c) (step' a' c)) (h : R a a') :
    Together R (list.foldlM step a) (list.foldlM step' a') := by
  induction list generalizing a a' with
  | nil => exact .ok h
  | cons c list ih =>
    rw [List.foldlM_cons, List.foldlM_cons]
    exact (hstep c List.mem_cons_self a a' h).bind fun b b' hb =>
      ih (fun d hd => hstep d (List.mem_cons_of_mem _ hd)) hb

end Together

/-! ### Twins -/

/-- Two fragments are **twins** if they read the same and neither of them shares nodes. -/
structure Twins (f f' : Ref Fragment) : Prop where
  reads : f'.value.erase = f.value.erase
  nodup : (f.ofFragment.within.map Ref.id).Nodup
  nodup' : (f'.ofFragment.within.map Ref.id).Nodup

/-- Two searches have come to twins. -/
structure ListTwins (l l' : Listing) : Prop where
  marks : l'.marks = l.marks
  order : List.Forall₂ Twins l.order l'.order

section Twins

variable {fragment? fragment?' : String → Option (Ref Fragment)} {f f' : Ref Fragment}
  {l l' : Listing}

theorem ListTwins.mark (h : ListTwins l l') (name : String) (m : Mark) :
    ListTwins (l.mark name m) (l'.mark name m) :=
  ⟨congrArg (Dict.insert name m) h.marks, h.order⟩

/-- **Searches for twins** go together. -/
theorem addInOrder_alike (hfind : ∀ name, Option.Rel Twins (fragment? name) (fragment?' name))
    (limit : Nat) (hf : Twins f f') (hl : ListTwins l l') :
    Together ListTwins (addInOrder fragment? limit f l) (addInOrder fragment?' limit f' l') := by
  induction limit generalizing f f' l l' with
  | zero => exact .error _
  | succ limit ih =>
    have hname : f'.value.name = f.value.name := Fragment.name_congr hf.reads
    cases hmark : l.marks.find? f.value.name with
    | some m =>
      rw [addInOrder, addInOrder, hname, hl.marks, hmark]
      cases m with
      | isDone => exact .ok hl
      | isOpen => exact .error _
    | none =>
      -- both spread the same names
      have hnames' : spreadNames f' = .ok f.value.spreads := by
        rw [spreadNames_of_nodup hf.nodup', Fragment.spreads_congr hf.reads]
      have hmark' : l'.marks.find? f'.value.name = none := by rw [hl.marks, hname, hmark]
      rw [addInOrder_new hmark (spreadNames_of_nodup hf.nodup), addInOrder_new hmark' hnames', hname]
      refine Together.bind (Together.foldlM (fun name _ below below' hbelow => ?_)
        (hl.mark f.value.name .isOpen)) fun below below' hbelow => ?_
      · have hfound := hfind name
        generalize fragment? name = found, fragment?' name = found' at hfound
        cases hfound with
        | none => exact .ok hbelow
        | some hg => exact ih hg hbelow
      · exact .ok ⟨(hbelow.mark f.value.name .isDone).marks,
          List.rel_append hbelow.order (.cons hf .nil)⟩

end Twins

section Fragments

variable {d d' : Document} {o o' : Ref Operation}

/-- Documents that read the same and share no nodes have twins under every name. -/
theorem find?_twins (hd : d'.erase = d.erase) (hunshared : d.Unshared o)
    (hunshared' : d'.Unshared o') (name : String) :
    Option.Rel Twins (Dict.find? name d.fragments) (Dict.find? name d'.fragments) := by
  rcases Depth.find?_fragments_cases hd name with ⟨hf, hf'⟩ | ⟨f, f', hf, hf', hreads⟩
  · rw [hf, hf']
    exact .none
  · rw [hf, hf']
    exact .some ⟨hreads, (Complexity.nodup_of_unshared hunshared).2 name f hf,
      (Complexity.nodup_of_unshared hunshared').2 name f' hf'⟩

/-- They have the same names, in the same order. -/
theorem map_fst_fragments (hd : d'.erase = d.erase) :
    d'.fragments.map Prod.fst = d.fragments.map Prod.fst := by
  have hkeys : ∀ d : Document, (Dict.mapValues (fun f => f.value.erase) d.fragments).map Prod.fst =
      d.fragments.map Prod.fst := fun d => by
    rw [Dict.mapValues, List.map_map]
    rfl
  rw [← hkeys, Document.fragments_congr hd, hkeys]

/-- The fragments in order are twins, or the searches end for the same reason. -/
theorem inOrder_alike (hd : d'.erase = d.erase) (hunshared : d.Unshared o)
    (hunshared' : d'.Unshared o') :
    Together (List.Forall₂ Twins) (inOrder d.fragments) (inOrder d'.fragments) := by
  have hfind := find?_twins hd hunshared hunshared'
  have hkeys := map_fst_fragments hd
  have hnames : Fragments.names d'.fragments = Fragments.names d.fragments := by
    rw [Fragments.names, hkeys, Fragments.names]
  have hlength : d'.fragments.length = d.fragments.length := by
    rw [← List.length_map (f := Prod.fst), hkeys, List.length_map]
  rw [inOrder, inOrder, Fragments.search, Fragments.search, hnames, hlength]
  refine Together.bind (Together.foldlM (R := ListTwins) (fun name _ l l' hl => ?_) ⟨rfl, .nil⟩)
    fun l l' hl => .ok hl.order
  have hfound := hfind name
  generalize Dict.find? name d.fragments = found, Dict.find? name d'.fragments = found' at hfound
  cases hfound with
  | none => exact .ok hl
  | some hf => exact addInOrder_alike hfind _ hf hl

end Fragments

/-! ### Scores -/

/-- What a calculator can read. -/
def Environment.erase (env : Environment) : Environment :=
  { env with field := env.field.erase, selections := eraseSelections env.selections }

/-- A calculator goes by **what it reads**, not by where that is stored. -/
def Calculator.Reads (calculator : Calculator) : Prop :=
  ∀ env env', env'.erase = env.erase → calculator env' = calculator env

theorem Calculator.reads_standard : Calculator.standard.Reads := by
  intro env env' h
  have hinner : env'.erase.inner = env.erase.inner := by rw [h]
  exact congrArg (addScores · 1) hinner

namespace Complexity

variable {calculator : Calculator} {vars : Option Variables} {scores : Dict Nat}

mutual

theorem tally_congr (hcalculator : calculator.Reads) :
    ∀ (s : Selection) {s' : Selection}, s'.erase = s.erase →
      tally calculator vars scores s' = tally calculator vars scores s
  | .field f ⟨label, items⟩, s', h => by
    obtain ⟨f', ⟨label', items'⟩, rfl, hf, hitems⟩ := Selection.eq_field_of_erase h
    rw [tally, tally, tallyList_congr hcalculator items hitems]
    refine bind_congr fun inner => congrArg Except.ok (hcalculator _ _ ?_)
    simp only [Environment.erase, hf, eraseSelections, hitems]
  | .spread name ds, s', h => by
    obtain ⟨ds', rfl⟩ := Selection.eq_spread_of_erase h
    rfl
  | .inline t ds ⟨label, items⟩, s', h => by
    obtain ⟨ds', ⟨label', items'⟩, rfl, -, hitems⟩ := Selection.eq_inline_of_erase h
    rw [tally, tally, tallyList_congr hcalculator items hitems]

/-- Selections that **read the same** have the same scores. -/
theorem tallyList_congr (hcalculator : calculator.Reads) :
    ∀ (items : List Selection) {items' : List Selection},
      Selection.eraseList items' = Selection.eraseList items →
      tallyList calculator vars scores items' = tallyList calculator vars scores items
  | [], items', h => by
    cases items' with
    | nil => rfl
    | cons => cases h
  | s :: items, items', h => by
    obtain ⟨s', rest, rfl, hs, hrest⟩ := Selection.eq_cons_of_eraseList h
    rw [tallyList, tallyList, tally_congr hcalculator s hs, tallyList_congr hcalculator items hrest]

end

/-- Twins have the same score. -/
theorem score_twins (hcalculator : calculator.Reads) {f f' : Ref Fragment} (hf : Twins f f') :
    score calculator vars scores (f'.value.size + 1) f'.ofFragment =
      score calculator vars scores (f.value.size + 1) f.ofFragment := by
  rw [score_fragment hf.nodup, score_fragment hf.nodup',
    tallyList_congr hcalculator _ (Fragment.eraseList_items hf.reads)]

/-- Lists of twins have the same scores. -/
theorem scoreFragments_congr (hcalculator : calculator.Reads) {order order' : List (Ref Fragment)}
    (h : List.Forall₂ Twins order order') :
    scoreFragments calculator vars order' = scoreFragments calculator vars order := by
  rw [scoreFragments, scoreFragments]
  generalize ([] : Dict Nat) = scores
  induction h generalizing scores with
  | nil => rfl
  | @cons f f' order order' hf _ ih =>
    rw [List.foldlM_cons, List.foldlM_cons, score_twins hcalculator hf,
      Fragment.name_congr hf.reads]
    exact bind_congr ih

variable {d d' : Document} {o o' : Ref Operation}

/-- **Operations that read the same and share no nodes have the same complexity**, or the same
error. -/
theorem ofOperation_congr (hcalculator : calculator.Reads) (hd : d'.erase = d.erase)
    (ho : o'.value.erase = o.value.erase) (hunshared : d.Unshared o)
    (hunshared' : d'.Unshared o') :
    ofOperation calculator vars d' o' = ofOperation calculator vars d o := by
  have horders := inOrder_alike hd hunshared hunshared'
  simp only [ofOperation]
  generalize inOrder d.fragments = x, inOrder d'.fragments = x' at horders
  cases horders with
  | error i => rfl
  | @ok order order' horder =>
    change (scoreFragments calculator vars order' >>= fun scores => _) =
      scoreFragments calculator vars order >>= fun scores => _
    rw [scoreFragments_congr hcalculator horder]
    refine bind_congr fun scores => ?_
    rw [score_operation (nodup_of_unshared hunshared).1,
      score_operation (nodup_of_unshared hunshared').1,
      tallyList_congr hcalculator _ (Operation.eraseList_items ho)]

end Complexity

/-! ### What sharing does -/

/-- An analysis goes by what it reads, if it does so for operations that share no nodes. -/
theorem calculate_congr {analysis : Document → Ref Operation → Result} {d d' : Document}
    (hd : d'.erase = d.erase) {name : Option String}
    (hanalysis : ∀ o o', d.operation name = .ok o → d'.operation name = .ok o' →
      o'.value.erase = o.value.erase → analysis d' o' = analysis d o) :
    (lift (d'.operation name) >>= analysis d') = (lift (d.operation name) >>= analysis d) := by
  have hread := Document.operation_congr hd name
  cases ho : d.operation name with
  | error e =>
    cases ho' : d'.operation name with
    | error e' =>
      rw [ho, ho'] at hread
      obtain rfl : e' = e := Except.error.inj hread
      rfl
    | ok o' =>
      rw [ho, ho'] at hread
      cases hread
  | ok o =>
    cases ho' : d'.operation name with
    | error e' =>
      rw [ho, ho'] at hread
      cases hread
    | ok o' =>
      rw [ho, ho'] at hread
      exact hanalysis o o' ho ho' (Except.ok.inj hread)

/-- **Without sharing, only what is read counts**: in documents that read the same an operation has
the same depth and, with every calculator that goes by what it reads, the same complexity, or the
analysis fails with the same error, if no node is shared. -/
theorem calculate_unshared (d d' : Document) (hd : d'.erase = d.erase) (name : Option String)
    (hunshared : ∀ o, d.operation name = .ok o → d.Unshared o)
    (hunshared' : ∀ o, d'.operation name = .ok o → d'.Unshared o) :
    Depth.calculate d' name = Depth.calculate d name ∧
      ∀ (calculator : Calculator) (vars : Option Variables), calculator.Reads →
        Complexity.calculate calculator vars d' name =
          Complexity.calculate calculator vars d name := by
  refine ⟨calculate_congr hd fun o o' ho ho' hreads => ?_, fun calculator vars hcalculator =>
    calculate_congr hd fun o o' ho ho' hreads => ?_⟩
  · exact Depth.ofOperation_congr hd hreads (hunshared o ho) (hunshared' o' ho')
  · exact Complexity.ofOperation_congr hcalculator hd hreads (hunshared o ho) (hunshared' o' ho')

/-! ### Two branches -/

/-- A field without arguments. -/
def plainField (name : String) (label : Nat) (items : List Selection) : Selection :=
  .field { alias? := none, name, arguments := .empty, directives := .empty } ⟨label, items⟩

/-- Fields nested inside one another, whose selections are stored from a label on. -/
def branch (label : Nat) : Selection :=
  plainField "p" label [plainField "q" (label + 1) [plainField "r" (label + 2) []]]

/-- An operation with a branch, and with another one below a field. -/
def branches (first second : Nat) : Operation where
  kind := .query
  name := none
  variableDefinitions := .empty
  directives := .empty
  selections := ⟨1, [branch first, plainField "a" 2 [branch second]]⟩

/-- The document of the operation with two branches. -/
def branchesDocument (first second : Nat) : Document where
  definitions := ⟨0, [.operation (branches first second)]⟩

theorem branches_unshared : ∀ o, (branchesDocument 3 6).operation none = .ok o →
    (branchesDocument 3 6).Unshared o := by
  intro o ho
  obtain rfl : ⟨⟨0, 0⟩, branches 3 6⟩ = o := Except.ok.inj ho
  unfold Document.Unshared
  decide

theorem branches_unshared_swapped : ∀ o, (branchesDocument 6 3).operation none = .ok o →
    (branchesDocument 6 3).Unshared o := by
  intro o ho
  obtain rfl : ⟨⟨0, 0⟩, branches 6 3⟩ = o := Except.ok.inj ho
  unfold Document.Unshared
  decide

/-- There are no fragments to score. -/
theorem branches_complexity (first second : Nat) :
    Complexity.calculate .standard none (branchesDocument first second) none =
      Complexity.score .standard none [] ((branches first second).size + 1)
        (Ref.ofOperation ⟨⟨0, 0⟩, branches first second⟩) := by
  have hnames : Fragments.names (branchesDocument first second).fragments = [] :=
    Fragments.names_document _
  change Complexity.ofOperation _ _ _ _ = _
  simp only [Complexity.ofOperation, inOrder, Fragments.search, hnames]
  rfl

theorem calculate_unshared_branches :
    (branchesDocument 6 3).erase = (branchesDocument 3 6).erase ∧
      (∀ o, (branchesDocument 3 6).operation none = .ok o → (branchesDocument 3 6).Unshared o) ∧
      (∀ o, (branchesDocument 6 3).operation none = .ok o → (branchesDocument 6 3).Unshared o) ∧
      Depth.calculate (branchesDocument 6 3) none = .ok 4 ∧
      Complexity.calculate .standard none (branchesDocument 6 3) none = .ok 7 := by
  obtain ⟨hdepth, hcomplexity⟩ := calculate_unshared (branchesDocument 3 6)
    (branchesDocument 6 3) rfl none branches_unshared branches_unshared_swapped
  refine ⟨rfl, branches_unshared, branches_unshared_swapped, ?_, ?_⟩
  · rw [hdepth]
    exact eq_ok_of_toOption (by decide +kernel)
  · rw [hcomplexity .standard none Calculator.reads_standard, branches_complexity]
    exact eq_ok_of_toOption (by decide +kernel)

/-- **Sharing shows**: where both branches are stored in one place, the fields below the second one
are not counted, although the document reads the same. -/
theorem calculate_sharing : (branchesDocument 3 3).erase = (branchesDocument 3 6).erase ∧
    Depth.calculate (branchesDocument 3 3) none = .ok 3 ∧
    Depth.calculate (branchesDocument 3 6) none = .ok 4 ∧
    Complexity.calculate .standard none (branchesDocument 3 3) none = .ok 5 ∧
    Complexity.calculate .standard none (branchesDocument 3 6) none = .ok 7 := by
  refine ⟨rfl, eq_ok_of_toOption (by decide +kernel), eq_ok_of_toOption (by decide +kernel), ?_, ?_⟩
  · rw [branches_complexity]
    exact eq_ok_of_toOption (by decide +kernel)
  · rw [branches_complexity]
    exact eq_ok_of_toOption (by decide +kernel)

end Arborist.Analysis
