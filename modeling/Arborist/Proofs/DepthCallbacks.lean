import Arborist.Analysis.Depth
import Arborist.Proofs.Limits

/-!
# The callbacks that compute depths

What the visitor of `Depth.visitor` does on each callback, written down once for the recursion:

* `visitor_eq`: it sees no more than a `Sight`, so its walk is a recursion;
* `sightVisitor_makesNotes`: it leaves the nodes alone;
* `consult_enter`, `consult_leave` and `consult_backRef`: what the callbacks come to.
-/

namespace Arborist

namespace Analysis.Depth

open Query Traversal

/-- What a callback of the walk sees. -/
abbrev DepthSight := Sight Handle Nat DepthVar

/-- The callbacks that see that. -/
abbrev SightCallback := Callback (Dict Nat) DepthSight (Request Handle Nat DepthVar)

/-- What the walk knows about a node. -/
abbrev DepthFacts := Facts Handle Nat DepthVar

/-- What the walk threads through. -/
abbrev DepthCourse := Course (Dict Nat) Handle Nat

/-! ### The visitor -/

/-- The largest depth among some nodes. -/
def deepest (heres : List DepthFacts) : Nat :=
  (heres.filterMap fun here => here.vars.get? ()).foldl max 0

/-- The visitor that computes depths, seeing what a cursor shows. -/
def sightVisitor (fragments : Dict (Ref Fragment)) :
    SightVisitor (Dict Nat) Handle Nat DepthVar where
  enter := do
    let sight ← Callback.view
    match sight.here.node.value.spread? with
    | some name =>
      match fragments.find? name with
      | some _ => pure .proceed
      | none => throw (.unknownFragment name)
    | none => pure .proceed
  leave := do
    let sight ← Callback.view
    let inner := (sight.below.map fun below => deepest below.flatten).getD 0
    let depth ← match sight.here.node.value with
      | .selection (.field ..) => pure (inner + 1)
      | .definition (.fragment f) => do
        modify (Dict.insert f.name inner)
        pure inner
      | _ => pure inner
    Callback.request (.setVar () depth)
    if sight.here.location.isNone then
      Callback.request (.setAccumulate depth)
    pure .proceed
  backRef := do
    let sight ← Callback.view
    match sight.here.node.value with
    | .definition (.fragment f) =>
      match Dict.find? f.name (← get) with
      | some depth =>
        Callback.request (.setVar () depth)
        pure .proceed
      | none => throw (.fragmentCycle f.name)
    | _ => pure .proceed

/-- The largest depth among the children, seen through a cursor. -/
theorem nested_eq (cursor : DepthCursor) :
    nested cursor = ((cursor.sight.below).map fun below => deepest below.flatten).getD 0 := by
  simp only [nested, Cursor.sight, Option.map_map]
  cases cursor.children? with
  | none => rfl
  | some children =>
    simp only [Option.map_some, Option.getD_some, deepest, Function.comp_apply]
    have hflatten : (children.map Context.facts).flatten = children.flatten.map Context.facts := by
      simp [Children.map, Children.flatten, List.flatMap_map, List.map_flatMap]
    rw [hflatten, List.filterMap_map]
    rfl

/-- The visitor sees no more than a cursor shows. -/
theorem visitor_eq (fragments : Dict (Ref Fragment)) :
    visitor fragments = (sightVisitor fragments).comap Cursor.sight := by
  have henter : enter fragments = (sightVisitor fragments).enter.comap Cursor.sight := by
    refine Callback.comap_view Cursor.sight fun cursor memo => ?_
    simp only [Cursor.sight, Context.facts]
    cases cursor.here.node.value.spread? with
    | none => rfl
    | some name => cases hname : fragments.find? name <;> simp only [hname] <;> rfl
  have hleave : leave = (sightVisitor fragments).leave.comap Cursor.sight := by
    refine Callback.comap_view Cursor.sight fun cursor memo => ?_
    rw [nested_eq]
    generalize (cursor.sight.below.map fun below => deepest below.flatten).getD 0 = inner
    simp only [Cursor.sight, Context.facts, Option.isNone_map]
    -- the requests at the end are the same for every kind of node
    have hend : ∀ (depth : Nat) (memo : Dict Nat),
        (do Callback.request (.setVar () depth)
            if cursor.here.link.isNone then Callback.request (.setAccumulate depth)
            pure .proceed : DepthCallback Control) memo =
          Program.comap Cursor.sight
            ((do Callback.request (.setVar () depth)
                 if cursor.here.link.isNone then Callback.request (.setAccumulate depth)
                 pure .proceed : SightCallback Control) memo) := by
      intro depth memo
      refine Callback.comap_request Cursor.sight _ (fun memo => ?_) memo
      cases cursor.here.link.isNone with
      | false => rfl
      | true => exact Callback.comap_request Cursor.sight _ (fun _ => rfl) memo
    rcases cursor.here.node.value with _ | (_ | _) | _ | (_ | _ | _) | _ | _ <;> exact hend _ _
  have hbackRef : backRef = (sightVisitor fragments).backRef.comap Cursor.sight := by
    refine Callback.comap_view Cursor.sight fun cursor memo => ?_
    simp only [Cursor.sight, Context.facts]
    rcases cursor.here.node.value with _ | (_ | f) | _ | _ | _ | _
    case definition.fragment =>
      change (match Dict.find? f.name memo with
        | some depth => _
        | none => _ : DepthCallback Control) memo = Program.comap _ ((match Dict.find? f.name memo with
        | some depth => _
        | none => _ : SightCallback Control) memo)
      cases Dict.find? f.name memo with
      | none => rfl
      | some depth => exact Callback.comap_request Cursor.sight _ (fun _ => rfl) memo
    all_goals rfl
  rw [visitor, henter, hleave, hbackRef]
  rfl

/-- The visitor only makes notes. -/
theorem sightVisitor_makesNotes (fragments : Dict (Ref Fragment)) :
    (sightVisitor fragments).Requests Request.MakesNotes := by
  have hanswer : ∀ (q : Request Handle Nat DepthVar) (f : Unit → SightCallback Control)
      (memo : Dict Nat), q.MakesNotes → (∀ memo, Program.Requests Request.MakesNotes (f () memo)) →
      Program.Requests Request.MakesNotes ((Callback.request q >>= f) memo) := by
    intro q f memo hq hf
    refine ⟨hq, fun r => ?_⟩
    cases r with
    | error e => trivial
    | ok u => exact hf memo
  intro phase memo
  cases phase with
  | enter =>
    intro sight
    change Program.Requests _ ((match sight.here.node.value.spread? with
      | some name => _
      | none => _ : SightCallback Control) memo)
    cases sight.here.node.value.spread? with
    | none => trivial
    | some name => cases hname : Dict.find? name fragments <;> simp only [hname] <;> trivial
  | leave =>
    intro sight
    have hend : ∀ (depth : Nat) (memo : Dict Nat), Program.Requests Request.MakesNotes
        ((do Callback.request (.setVar () depth)
             if sight.here.location.isNone then Callback.request (.setAccumulate depth)
             pure .proceed : SightCallback Control) memo) := by
      intro depth memo
      refine hanswer _ _ memo trivial fun memo => ?_
      cases sight.here.location.isNone with
      | false => trivial
      | true => exact hanswer _ _ memo trivial fun _ => trivial
    change Program.Requests _ ((match sight.here.node.value with
      | .selection (.field ..) => _
      | .definition (.fragment f) => _
      | _ => _ : SightCallback Control) memo)
    rcases sight.here.node.value with _ | (_ | _) | _ | (_ | _ | _) | _ | _ <;> exact hend _ _
  | backRef =>
    intro sight
    change Program.Requests _ ((match sight.here.node.value with
      | .definition (.fragment f) => _
      | _ => _ : SightCallback Control) memo)
    rcases sight.here.node.value with _ | (_ | f) | _ | _ | _ | _
    case definition.fragment =>
      change Program.Requests _ ((match Dict.find? f.name memo with
        | some depth => _
        | none => _ : SightCallback Control) memo)
      cases Dict.find? f.name memo with
      | none => trivial
      | some depth => exact hanswer _ _ memo trivial fun _ => trivial
    all_goals trivial

/-! ### Callbacks -/

/-- The facts of a node for which a callback is made. -/
def reach (met : DepthFacts) (accumulate : Nat) (phase : Phase) : DepthFacts :=
  { met with current := accumulate, next := none, phase := some phase }

/-- The depth of a node whose children have at most the given one. -/
def depthOf : Element → Nat → Nat
  | .selection (.field ..), inner => inner + 1
  | _, inner => inner

/-- Remembers the depth of a fragment. -/
def remember : Element → Nat → Dict Nat → Dict Nat
  | .definition (.fragment f), inner, memo => Dict.insert f.name inner memo
  | _, _, memo => memo

section Consult

variable {fragments : Dict (Ref Fragment)} {rootVars : Vars DepthVar} {above : List DepthFacts}
  {met : DepthFacts} {course : DepthCourse}

theorem consult_enter (h : ∀ name, met.node.value.spread? = some name →
      ∃ f, Dict.find? name fragments = some f) :
    (consult rootVars (sightVisitor fragments) .enter above none met).runWith course =
      (.ok (.proceed, reach met course.accumulate .enter), course) := by
  refine consult_of_ok (d := ⟨reach met course.accumulate .enter, course.edits⟩) ?_
  change (match met.node.value.spread? with
    | some name => _
    | none => _ : SightCallback Control).runOn _ _ _ _ = _
  cases hspread : met.node.value.spread? with
  | none => rfl
  | some name =>
    obtain ⟨f, hf⟩ := h name hspread
    simp only [hf]
    rfl

theorem consult_enter_unknown {name : String} (hname : met.node.value.spread? = some name)
    (hf : Dict.find? name fragments = none) :
    (consult rootVars (sightVisitor fragments) .enter above none met).runWith course =
      (.error (.failed (.unknownFragment name)), course) := by
  refine consult_of_error (d := ⟨reach met course.accumulate .enter, course.edits⟩) ?_
  change (match met.node.value.spread? with
    | some name => _
    | none => _ : SightCallback Control).runOn _ _ _ _ = _
  simp only [hname, hf]
  rfl

theorem consult_leave (below : Children DepthFacts) :
    (consult rootVars (sightVisitor fragments) .leave above (some below) met).runWith course =
      let inner := deepest below.flatten
      let depth := depthOf met.node.value inner
      let next := if met.location.isNone then some depth else none
      (.ok (.proceed, { reach met course.accumulate .leave with
          vars := met.vars.insert () depth, next }),
        { course with
          own := remember met.node.value inner course.own
          accumulate := next.getD course.accumulate }) := by
  obtain ⟨⟨id, value⟩, first, changed, deleted, location, vars, current, next, phase⟩ := met
  rcases value with _ | (_ | _) | _ | (_ | _ | _) | _ | _ <;> cases location <;> rfl

theorem consult_backRef {f : Fragment} (hnode : met.node.value = .definition (.fragment f)) :
    (consult rootVars (sightVisitor fragments) .backRef above none met).runWith course =
      match Dict.find? f.name course.own with
      | some depth => (.ok (.proceed, { reach met course.accumulate .backRef with
          vars := met.vars.insert () depth }), course)
      | none => (.error (.failed (.fragmentCycle f.name)), course) := by
  cases hmemo : Dict.find? f.name course.own with
  | some depth =>
    refine consult_of_ok (d := ⟨{ reach met course.accumulate .backRef with
      vars := met.vars.insert () depth }, course.edits⟩) ?_
    change (match met.node.value with
      | .definition (.fragment f) => _
      | _ => _ : SightCallback Control).runOn _ _ _ _ = _
    rw [hnode]
    change (match Dict.find? f.name course.own with
      | some depth => _
      | none => _ : SightCallback Control).runOn _ _ _ _ = _
    rw [hmemo]
    rfl
  | none =>
    refine consult_of_error (d := ⟨reach met course.accumulate .backRef, course.edits⟩) ?_
    change (match met.node.value with
      | .definition (.fragment f) => _
      | _ => _ : SightCallback Control).runOn _ _ _ _ = _
    rw [hnode]
    change (match Dict.find? f.name course.own with
      | some depth => _
      | none => _ : SightCallback Control).runOn _ _ _ _ = _
    rw [hmemo]
    rfl

/-- Nothing is done when a node is met again that is not a fragment. -/
theorem consult_backRef_other (h : ∀ f, met.node.value ≠ .definition (.fragment f)) :
    (consult rootVars (sightVisitor fragments) .backRef above none met).runWith course =
      (.ok (.proceed, reach met course.accumulate .backRef), course) := by
  obtain ⟨⟨id, value⟩, first, changed, deleted, location, vars, current, next, phase⟩ := met
  rcases value with _ | (_ | f) | _ | _ | _ | _
  case definition.fragment => exact absurd rfl (h f)
  all_goals rfl

end Consult

end Analysis.Depth

end Arborist
