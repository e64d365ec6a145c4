import Arborist.Analysis.Complexity
import Arborist.Proofs.NestedSelections
import Mathlib

/-!
# Scores of selections

The walk of `Complexity.score` as a **recursion** over selections.

* `tally` scores a selection, with the scores of fragments looked up, and `rate` is the score of a
  node from those of its selections.
* `Gives` says that a part of a fan-out walk comes to a result, provided that it meets no node that
  was met before. It goes through sequences (`Gives.bind`) and lists (`Gives.mapM`), so that a visit
  is taken apart along its definition.
* `visit_gives` and `score_eq_tallyNode`: the walk gives what the recursion gives.
* `sumScores_eq`: sums may stop at the largest score at every level, or once in the end.
-/

namespace Arborist.Analysis

open Query

/-! ### Sums of scores -/

theorem foldl_addScores (scores : List Nat) (n : Nat) (hn : n ≤ maxScore) :
    scores.foldl addScores n = min (n + scores.sum) maxScore := by
  induction scores generalizing n with
  | nil => simp [hn]
  | cons score scores ih =>
    have hle : addScores n score ≤ maxScore := Nat.min_le_right _ _
    rw [List.foldl_cons, ih _ hle, List.sum_cons, addScores]
    omega

/-- A sum that stops at the largest score on the way is the sum that stops there in the end. -/
theorem sumScores_eq (scores : List Nat) : sumScores scores = min scores.sum maxScore := by
  rw [sumScores, foldl_addScores _ _ (Nat.zero_le _), Nat.zero_add]

namespace Complexity

/-! ### Scores with spreads looked up -/

section Tally

variable (calculator : Calculator) (vars : Option Variables) (scores : Dict Nat)

mutual

/-- The score of a selection, with the scores of fragments **looked up**. -/
def tally : Selection → Except Error Nat
  | .field field ⟨label, items⟩ => do
    let inner ← tallyList items
    pure (calculator { field, selections := ⟨label, items⟩, inner := sumScores inner, vars })
  | .spread name _ =>
    match scores.find? name with
    | some score => .ok score
    | none => .error (.unknownFragment name)
  | .inline _ _ ⟨_, items⟩ => do
    let inner ← tallyList items
    pure (sumScores inner)
termination_by structural selection => selection

/-- The scores of a list of selections. -/
def tallyList : List Selection → Except Error (List Nat)
  | [] => .ok []
  | selection :: rest => do
    let score ← tally selection
    let others ← tallyList rest
    pure (score :: others)
termination_by structural items => items

end

/-- The score of a node from those of its selections. -/
def rate : Element → List Nat → Nat
  | .selection (.field field selections), inner =>
    calculator { field, selections, inner := sumScores inner, vars }
  | _, inner => sumScores inner

/-- The score of a node, with the scores of fragments looked up. -/
def tallyNode : Element → Except Error Nat
  | .selection selection => tally calculator vars scores selection
  | e => rate calculator vars e <$> tallyList calculator vars scores e.selections.items

theorem tallyNode_of_spread?_eq_none {e : Element} (h : e.spread? = none) :
    tallyNode calculator vars scores e =
      rate calculator vars e <$> tallyList calculator vars scores e.selections.items := by
  match e, h with
  | .selection (.field ..), _ => rfl
  | .selection (.inline ..), _ => rfl
  | .document _, _ => rfl
  | .definition _, _ => rfl
  | .variableDefinition _, _ => rfl
  | .directive _, _ => rfl
  | .argument _, _ => rfl

theorem tallyList_eq_mapM (items : List Selection) :
    tallyList calculator vars scores items = items.mapM (tally calculator vars scores) := by
  induction items with
  | nil => rfl
  | cons s items ih => rw [tallyList, ih, List.mapM_cons]

theorem length_of_tallyList {items : List Selection} {inner : List Nat}
    (h : tallyList calculator vars scores items = .ok inner) : inner.length = items.length := by
  induction items generalizing inner with
  | nil =>
    obtain rfl := Except.ok.inj h
    rfl
  | cons s items ih =>
    rw [tallyList] at h
    cases hs : tally calculator vars scores s with
    | error e => simp [hs, bind, Except.bind] at h
    | ok score =>
      cases hitems : tallyList calculator vars scores items with
      | error e => simp [hs, hitems, bind, Except.bind] at h
      | ok others =>
        rw [hs, hitems] at h
        obtain rfl := Except.ok.inj h
        rw [List.length_cons, List.length_cons, ih hitems]

end Tally

/-! ### Callbacks -/

section Callbacks

open Fanout

variable {calculator : Calculator} {vars : Option Variables} {scores : Dict Nat}
  {s : Shared Unit Handle} {b : ScoreBranch}

/-- A callback that looks first sees the branch. -/
theorem call_view (b : ScoreBranch) (next : ScoreBranch → ScoreCallback Control) :
    call b (Callback.view >>= next) = call b (next b) := rfl

theorem call_enter (h : b.node.value.spread? = none) :
    (call b (enter scores)).runWith s = (.ok (.proceed, b), s) := by
  rw [enter, call_view, h]
  rfl

theorem call_enter_found {name : String} {ds : Block Directive} {score : Nat}
    (h : b.node.value = .selection (.spread name ds)) (hscore : scores.find? name = some score) :
    (call b (enter scores)).runWith s = (.ok (.proceed, { b with next := some score }), s) := by
  rw [enter, call_view, h]
  simp only [Element.spread?, hscore]
  rfl

theorem call_enter_missing {name : String} {ds : Block Directive}
    (h : b.node.value = .selection (.spread name ds)) (hscore : scores.find? name = none) :
    (call b (enter scores)).runWith s = (.error (.failed (.unknownFragment name)), s) := by
  rw [enter, call_view, h]
  simp only [Element.spread?, hscore]
  rfl

theorem call_leave (h : b.node.value.spread? = none) {results : Children Nat}
    (hresults : b.results = some results) :
    (call b (leave calculator vars)).runWith s =
      (.ok (.proceed, { b with next := some (rate calculator vars b.node.value results.flatten) }),
        s) := by
  obtain ⟨⟨id, value⟩, location, frames, vars, rootVars, current, next, results, phase,
    visited⟩ := b
  obtain rfl : results = _ := hresults
  rw [leave, call_view]
  match value, h with
  | .selection (.field ..), _ => rfl
  | .selection (.inline ..), _ => rfl
  | .document _, _ => rfl
  | .definition _, _ => rfl
  | .variableDefinition _, _ => rfl
  | .directive _, _ => rfl
  | .argument _, _ => rfl

theorem call_leave_spread {name : String} {ds : Block Directive}
    (h : b.node.value = .selection (.spread name ds)) :
    (call b (leave calculator vars)).runWith s = (.ok (.proceed, b), s) := by
  rw [leave, call_view, h]
  rfl

end Callbacks

/-! ### The walk is a recursion -/

section Visits

open Fanout

/-- A part of a walk **gives** a result and takes some nodes on the way, provided that they are new
to the walk and different from one another. -/
def Gives {α : Type} (x : Walk (Shared Unit Handle) α) (ids : List NodeId)
    (result : Except Error α) : Prop :=
  ∀ s : Shared Unit Handle, ids.Nodup → (∀ i ∈ ids, i ∉ s.visited) →
    ∃ t, x.runWith s = (result.mapError .failed, t) ∧
      ∀ a, result = .ok a → t.visited = ids.reverse ++ s.visited

namespace Gives

variable {α γ : Type} {x : Walk (Shared Unit Handle) α} {ids ids' : List NodeId}
  {result : Except Error α}

theorem pure (a : α) : Gives (pure a) [] (.ok a) :=
  fun s _ _ => ⟨s, rfl, fun _ _ => rfl⟩

/-- One part of a walk after the other. -/
theorem bind {next : α → Walk (Shared Unit Handle) γ} {result' : α → Except Error γ}
    (h : Gives x ids result) (hnext : ∀ a, result = .ok a → Gives (next a) ids' (result' a)) :
    Gives (x >>= next) (ids ++ ids') (result >>= result') := by
  intro s hnodup hnew
  obtain ⟨hids, hids', hapart⟩ := List.nodup_append'.mp hnodup
  obtain ⟨t, hx, hvisited⟩ := h s hids fun i hi => hnew i (List.mem_append_left _ hi)
  cases result with
  | error e => exact ⟨t, Walk.runWith_bind_error hx next, nofun⟩
  | ok a =>
    have hnew' : ∀ i ∈ ids', i ∉ t.visited := by
      intro i hi
      rw [hvisited a rfl, List.mem_append, List.mem_reverse]
      exact fun hmem => hmem.elim (fun hmem => hapart hmem hi)
        (hnew i (List.mem_append_right _ hi))
    obtain ⟨t', hrun, hvisited'⟩ := hnext a rfl t hids' hnew'
    refine ⟨t', (Walk.runWith_bind_ok hx next).trans hrun, fun c hc => ?_⟩
    rw [hvisited' c hc, hvisited a rfl, List.reverse_append, List.append_assoc]

/-- A list of parts, one after the other. -/
theorem mapM {visit : γ → Walk (Shared Unit Handle) α} {within : γ → List NodeId}
    {result : γ → Except Error α} {list : List γ}
    (h : ∀ c ∈ list, Gives (visit c) (within c) (result c)) :
    Gives (list.mapM visit) (list.flatMap within) (list.mapM result) := by
  induction list with
  | nil => exact .pure []
  | cons c list ih =>
    rw [List.mapM_cons, List.mapM_cons, List.flatMap_cons]
    refine (h c List.mem_cons_self).bind fun a _ => ?_
    rw [← List.append_nil (list.flatMap within)]
    exact (ih fun d hd => h d (List.mem_cons_of_mem _ hd)).bind fun as _ => .pure (a :: as)

/-- What leaves the walk as it is. -/
theorem step {next : α → Walk (Shared Unit Handle) γ} {result : Except Error γ} {a : α}
    (h : ∀ s, x.runWith s = (.ok a, s)) (hnext : Gives (next a) ids result) :
    Gives (x >>= next) ids result := by
  intro s hnodup hnew
  obtain ⟨t, hrun, hvisited⟩ := hnext s hnodup hnew
  exact ⟨t, (Walk.runWith_bind_ok (h s) next).trans hrun, hvisited⟩

/-- What stops the walk. -/
theorem stop {next : α → Walk (Shared Unit Handle) γ} {e : Error}
    (h : ∀ s, x.runWith s = (.error (.failed e), s)) : Gives (x >>= next) ids (.error e) :=
  fun s _ _ => ⟨s, Walk.runWith_bind_error (h s) next, nofun⟩

/-- What goes by the state of the walk. -/
theorem get {next : Shared Unit Handle → Walk (Shared Unit Handle) α}
    (h : ∀ s, Gives (next s) ids result) : Gives (MonadState.get >>= next) ids result := by
  intro s hnodup hnew
  obtain ⟨t, hrun, hvisited⟩ := h s s hnodup hnew
  exact ⟨t, hrun, hvisited⟩

/-- A node that is new is free. -/
theorem take {node : Handle} {next : Bool → Walk (Shared Unit Handle) α}
    (h : Gives (next true) ids result) :
    Gives (Fanout.take node >>= next) (node.id :: ids) result := by
  intro s hnodup hnew
  obtain ⟨hapart, hnodup⟩ := List.nodup_cons.mp hnodup
  have hfree : s.visited.contains (identity node) = false := by
    rw [← Bool.not_eq_true, List.contains_iff_mem]
    exact hnew node.id List.mem_cons_self
  have htake : (Fanout.take node).runWith s =
      (.ok true, { s with visited := node.id :: s.visited }) := by
    rw [Fanout.take]
    change ExceptT.run (m := StateM _) (if s.visited.contains (identity node) then _ else _) s = _
    rw [hfree]
    rfl
  obtain ⟨t, hrun, hvisited⟩ := h { s with visited := node.id :: s.visited } hnodup (by
    intro i hi hmem
    rcases List.mem_cons.mp hmem with rfl | hmem
    · exact hapart hi
    · exact hnew i (List.mem_cons_of_mem _ hi) hmem)
  refine ⟨t, (Walk.runWith_bind_ok htake next).trans hrun, fun a ha => ?_⟩
  rw [hvisited a ha, List.reverse_cons, List.append_assoc]
  rfl

end Gives

/-- The walk that computes a score. -/
def scorePlan : Plan Handle Nat NoVar where
  children := selectionChildren
  initial := 0

/-- The number of levels that are enough for all that lies below a node. -/
def levels (e : Element) : Nat :=
  1 + Selection.sizeList e.selections.items

variable {calculator : Calculator} {vars : Option Variables} {scores : Dict Nat}

/-- A node that is new is entered, its selections are visited, and it is left. -/
theorem visit_new {limit : Nat} {frames : List (Frame Handle NoVar)} {location : Option Location}
    {accumulate : Nat} {h : Handle} (hspread : h.value.spread? = none)
    (hbelow : ∀ frames accumulate, Gives
      ((selectionChildren h).located.mapM fun x =>
        visit scorePlan (visitor calculator vars scores) limit frames (some x.1) accumulate x.2)
      (h.value.inner.map Ref.id) (tallyList calculator vars scores h.value.selections.items)) :
    Gives (visit scorePlan (visitor calculator vars scores)
      (limit + 1) frames location accumulate h)
      (h.within.map Ref.id) (tallyNode calculator vars scores h.value) := by
  rw [Handle.within, List.map_cons, visit, tallyNode_of_spread?_eq_none _ _ _ hspread,
    ← bind_pure_comp]
  refine .take (.get fun s => ?_)
  rw [if_pos rfl]
  refine .step (fun _ => call_enter hspread) ?_
  rw [← List.append_nil (h.value.inner.map Ref.id)]
  refine (hbelow _ _).bind fun results hresults => .get fun s => ?_
  refine .step (fun _ => call_leave hspread rfl) ?_
  have hlength : results.length = (selectionChildren h).flatten.length := by
    rw [length_of_tallyList _ _ _ hresults]
    simp [selectionChildren, Children.flatten, selectionHandles, Block.handles, Block.refs]
  have hflatten : ((scorePlan.children h).regroup results).flatten = results :=
    Children.flatten_regroup _ _ hlength
  rw [hflatten]
  exact .pure _

/-- A spread is looked up. -/
theorem visit_spread {limit : Nat} {frames : List (Frame Handle NoVar)} {location : Option Location}
    {accumulate : Nat} {h : Handle} {name : String} {ds : Block Directive}
    (hspread : h.value = .selection (.spread name ds)) :
    Gives (visit scorePlan (visitor calculator vars scores)
      (limit + 1) frames location accumulate h)
      (h.within.map Ref.id) (tallyNode calculator vars scores h.value) := by
  obtain ⟨id, value⟩ := h
  obtain rfl : value = _ := hspread
  rw [visit]
  refine .take (.get fun s => ?_)
  rw [if_pos rfl]
  change Gives _ [] (match scores.find? name with
    | some score => .ok score
    | none => .error (.unknownFragment name))
  cases hscore : scores.find? name with
  | none => exact .stop fun _ => call_enter_missing rfl hscore
  | some score =>
    refine .step (fun _ => call_enter_found rfl hscore) ?_
    refine .step (fun _ => rfl) (.get fun s => ?_)
    exact .step (fun _ => call_leave_spread rfl) (.pure score)

theorem tallyList_eq_mapM_located (h : Handle) :
    tallyList calculator vars scores h.value.selections.items =
      (selectionChildren h).located.mapM fun x => tallyNode calculator vars scores x.2.value := by
  have hnodes : ((selectionHandles h.value.selections).mapM fun x =>
      tallyNode calculator vars scores x.value) =
        (selectionChildren h).located.mapM fun x => tallyNode calculator vars scores x.2.value := by
    rw [← map_located_selections, List.mapM_map]
    rfl
  rw [← hnodes, selectionHandles, Block.handles, List.mapM_map, tallyList_eq_mapM,
    ← Block.map_value_refs, List.mapM_map]
  rfl

theorem inner_eq_flatMap_located (h : Handle) :
    h.value.inner.map Ref.id =
      (selectionChildren h).located.flatMap fun x => x.2.within.map Ref.id := by
  rw [Element.inner_eq, ← map_located_selections, List.flatMap_map, List.map_flatMap]

theorem size_le_sizeList {selection : Selection} {items : List Selection} (h : selection ∈ items) :
    selection.size ≤ Selection.sizeList items := by
  induction items with
  | nil => exact absurd h List.not_mem_nil
  | cons s items ih =>
    rw [Selection.sizeList]
    rcases List.mem_cons.mp h with rfl | h
    · exact Nat.le_add_right _ _
    · exact Nat.le_trans (ih h) (Nat.le_add_left _ _)

theorem levels_selection (s : Selection) : levels (.selection s) = s.size := by
  cases s <;> rfl

theorem levels_le_sizeList {h : Handle} {x : Location × Handle}
    (hx : x ∈ (selectionChildren h).located) :
    levels x.2.value ≤ Selection.sizeList h.value.selections.items := by
  have hmem := List.mem_map_of_mem (f := Prod.snd) hx
  rw [map_located_selections, selectionHandles, Block.handles] at hmem
  obtain ⟨r, hr, hvalue⟩ := List.mem_map.mp hmem
  rw [← hvalue, Ref.map, levels_selection]
  exact size_le_sizeList (Block.map_value_refs _ ▸ List.mem_map_of_mem hr)

/-- **A visit is the recursion**, if there are levels enough. -/
theorem visit_gives (limit : Nat) (frames : List (Frame Handle NoVar)) (location : Option Location)
    (accumulate : Nat) (h : Handle) (hlimit : levels h.value ≤ limit) :
    Gives (visit scorePlan (visitor calculator vars scores) limit frames location accumulate h)
      (h.within.map Ref.id) (tallyNode calculator vars scores h.value) := by
  induction limit generalizing frames location accumulate h with
  | zero =>
    rw [levels] at hlimit
    omega
  | succ limit ih =>
    by_cases hspread : h.value.spread? = none
    · refine visit_new hspread fun frames accumulate => ?_
      rw [tallyList_eq_mapM_located, inner_eq_flatMap_located]
      refine .mapM fun x hx => ih _ _ _ _ ?_
      have hx' := levels_le_sizeList hx
      rw [levels] at hlimit
      omega
    · obtain ⟨id, value⟩ := h
      match value, hspread with
      | .selection (.spread name ds), _ => exact visit_spread rfl

/-- **The score of a node is the recursion**, if no node below it is shared. -/
theorem score_eq_tallyNode {limit : Nat} {root : Handle} (hlimit : levels root.value ≤ limit)
    (hnodup : (root.within.map Ref.id).Nodup) :
    score calculator vars scores limit root =
      (tallyNode calculator vars scores root.value).mapError .failed := by
  have hroots : Gives
    ([root].mapM (visit scorePlan (visitor calculator vars scores) limit [] none 0))
      ([root].flatMap fun h => h.within.map Ref.id)
      ([root].mapM fun h => tallyNode calculator vars scores h.value) :=
    .mapM fun h hh => visit_gives limit [] none 0 h (List.mem_singleton.mp hh ▸ hlimit)
  obtain ⟨t, hrun, -⟩ := hroots { visited := [], own := () } (by simpa using hnodup)
    fun _ _ => List.not_mem_nil
  -- one root gives a list of one result
  have htraverse :
    ((traverse scorePlan (visitor calculator vars scores) limit [root]).runWith ()).1 =
      (([root].mapM fun h => tallyNode calculator vars scores h.value).mapError .failed) :=
    congrArg Prod.fst hrun
  have hscore : score calculator vars scores limit root =
      ((traverse scorePlan (visitor calculator vars scores) limit [root]).runWith ()).1.map
        (·.headD 0) := by
    rw [score]
    split
    · next results hout =>
      rw [show ((traverse scorePlan (visitor calculator vars scores) limit [root]).runWith ()).1 =
        .ok results from hout]
      rfl
    · next e hout =>
      rw [show ((traverse scorePlan (visitor calculator vars scores) limit [root]).runWith ()).1 =
        .error e from hout]
      rfl
  rw [hscore, htraverse, List.mapM_cons, List.mapM_nil]
  cases tallyNode calculator vars scores root.value <;> rfl

end Visits

end Complexity

end Arborist.Analysis
