import Arborist.Proofs.DepthCallbacks
import Arborist.Proofs.Inlining

/-!
# Visits that compute depths

What a visit gives in the recursion of the depth visitor: the depth of the **selections that a node
stands for**, with all spreads replaced, or an error that says what is wrong with them.

Every selection is visited in its one place, and a fragment is entered by the first spread that
reaches it. The invariant `Sound` ties three things together: a fragment that was entered is either
open or its depth is remembered, what is remembered is right, and nothing of a fragment has been met
before it is entered. All that is being visited lies below the open fragments (`Beneath`), so an
open fragment that is met again spreads itself.

* `Outcome` is what a part of the recursion comes to, and `Outcome.bind` puts parts together.
* `rates`: all visits have the right outcome, by induction on the levels.
-/

namespace Arborist.Analysis.Depth

open Query Traversal

/-! ### Selections and identities -/

/-- The selections that a node stands for: itself if it is one, else those that it has. -/
def scope : Element → List Selection
  | .selection s => [s]
  | e => e.selections.items

/-- The identities of a node and of the selections below it. -/
def ids (h : Handle) : List NodeId :=
  h.within.map Ref.id

theorem flatMap_scope (b : Block Selection) :
    (selectionHandles b).flatMap (fun h => scope h.value) = b.items := by
  rw [selectionHandles, Block.handles, List.flatMap_map]
  exact (List.flatMap_pure_eq_map _ _).trans b.map_value_refs

theorem ids_eq (h : Handle) :
    ids h = h.id :: (selectionHandles h.value.selections).flatMap ids := by
  rw [ids, Handle.within, List.map_cons, Element.inner_eq, List.map_flatMap]
  rfl

section Invariant

variable (fragments : Dict (Ref Fragment))

/-- The fragments are found under their names, and no node is shared between two places in them. -/
structure Distinct : Prop where
  name : ∀ {name f}, Dict.find? name fragments = some f → f.value.name = name
  nodup : ∀ {name f}, Dict.find? name fragments = some f → (ids f.ofFragment).Nodup
  apart : ∀ {name f other g i}, Dict.find? name fragments = some f →
    Dict.find? other fragments = some g → i ∈ ids f.ofFragment → i ∈ ids g.ofFragment → name = other

/-- What the walk has come to, with some fragments **open**: they were entered and not left. -/
structure Sound (opened : List String) (course : DepthCourse) : Prop where
  /-- The depths that are remembered are right. -/
  memo : ∀ {name d}, Dict.find? name course.own = some d → ∃ f, Dict.find? name fragments = some f ∧
    HasDepth (Dict.find? · fragments) f.value.selections.items d
  /-- A fragment that was entered is open, or its depth is remembered. -/
  entered : ∀ {name f}, Dict.find? name fragments = some f → f.id ∈ course.visited →
    name ∈ opened ∨ ∃ d, Dict.find? name course.own = some d
  /-- Nothing of a fragment was met before it is entered. -/
  unmet : ∀ {name f i}, Dict.find? name fragments = some f → f.id ∉ course.visited →
    i ∈ ids f.ofFragment → i ∉ course.visited

/-- Nodes that were not met, and that are not in a fragment that is still to come. -/
structure Fresh (visited own : List NodeId) : Prop where
  nodup : own.Nodup
  unmet : ∀ {i}, i ∈ own → i ∉ visited
  apart : ∀ {name f i}, Dict.find? name fragments = some f → f.id ∉ visited →
    i ∈ ids f.ofFragment → i ∉ own

/-- Nothing but some nodes of one's own and of fragments that were entered has been met. -/
structure Grows (own visited visited' : List NodeId) : Prop where
  subset : visited ⊆ visited'
  only : ∀ {i}, i ∈ visited' → i ∈ visited ∨ i ∈ own ∨ ∃ name f,
    Dict.find? name fragments = some f ∧ f.id ∈ visited' ∧ f.id ∉ visited ∧ i ∈ ids f.ofFragment

/-- The open fragments spread all that some selections spread. -/
def Beneath (opened : List String) (items : List Selection) : Prop :=
  ∀ name f, name ∈ opened → Dict.find? name fragments = some f →
    ∀ other, Spreads (Dict.find? · fragments) items other →
      Spreads (Dict.find? · fragments) f.value.selections.items other

/-- What is **wrong** with some selections, as an error says it. -/
inductive Fault (items : List Selection) : Error → Prop
  | unknown {name : String} (h : Spreads (Dict.find? · fragments) items name)
      (hf : Dict.find? name fragments = none) : Fault items (.unknownFragment name)
  | cycle {name : String} {f : Ref Fragment} (h : Spreads (Dict.find? · fragments) items name)
      (hf : Dict.find? name fragments = some f)
      (hself : Spreads (Dict.find? · fragments) f.value.selections.items name) :
      Fault items (.fragmentCycle name)

variable {fragments} {opened : List String} {course : DepthCourse}
  {items items' : List Selection} {visited visited' visited'' own own' : List NodeId} {i : NodeId}
  {name : String} {f : Ref Fragment}

theorem Fault.mono {e : Error} (h : Fault fragments items e)
    (hsub : ∀ name, Spreads (Dict.find? · fragments) items name →
      Spreads (Dict.find? · fragments) items' name) : Fault fragments items' e := by
  cases h with
  | unknown h hf => exact .unknown (hsub _ h) hf
  | cycle h hf hself => exact .cycle (hsub _ h) hf hself

theorem Beneath.mono (h : Beneath fragments opened items')
    (hsub : ∀ name, Spreads (Dict.find? · fragments) items name →
      Spreads (Dict.find? · fragments) items' name) : Beneath fragments opened items :=
  fun name f hname hf other hother => h name f hname hf other (hsub other hother)

theorem Fresh.left (h : Fresh fragments visited (own ++ own')) : Fresh fragments visited own :=
  ⟨(List.nodup_append.mp h.nodup).1, fun hi => h.unmet (List.mem_append_left _ hi),
    fun hf hvisited hi hown => h.apart hf hvisited hi (List.mem_append_left _ hown)⟩

/-- What is left is fresh after the first part has been visited. -/
theorem Fresh.right (h : Fresh fragments visited (own ++ own'))
    (hgrows : Grows fragments own visited visited') : Fresh fragments visited' own' := by
  obtain ⟨-, hnodup, hdisjoint⟩ := List.nodup_append.mp h.nodup
  refine ⟨hnodup, fun {i} hi hvisited => ?_, fun hf hvisited hi hown => ?_⟩
  · rcases hgrows.only hvisited with hold | hown | ⟨name, f, hf, -, hfirst, hmem⟩
    · exact h.unmet (List.mem_append_right _ hi) hold
    · exact hdisjoint i hown i hi rfl
    · exact h.apart hf hfirst hmem (List.mem_append_right _ hi)
  · exact h.apart hf (fun hmem => hvisited (hgrows.subset hmem)) hi (List.mem_append_right _ hown)

/-- What lies below a node is fresh after the node has been entered. -/
theorem Fresh.enter (h : Fresh fragments visited (i :: own)) :
    Fresh fragments (i :: visited) own := by
  obtain ⟨hnot, hnodup⟩ := List.nodup_cons.mp h.nodup
  refine ⟨hnodup, fun {j} hj hvisited => ?_, fun hf hvisited hi hown => ?_⟩
  · rcases List.mem_cons.mp hvisited with rfl | hvisited
    · exact hnot hj
    · exact h.unmet (List.mem_cons_of_mem _ hj) hvisited
  · exact h.apart hf (fun hmem => hvisited (List.mem_cons_of_mem _ hmem)) hi
      (List.mem_cons_of_mem _ hown)

theorem Grows.refl (visited : List NodeId) : Grows fragments [] visited visited :=
  ⟨List.Subset.refl _, .inl⟩

theorem Grows.trans (h : Grows fragments own visited visited')
    (h' : Grows fragments own' visited' visited'') :
    Grows fragments (own ++ own') visited visited'' := by
  refine ⟨List.Subset.trans h.subset h'.subset, fun {i} hi => ?_⟩
  rcases h'.only hi with hi | hown | ⟨name, f, hf, hin, hout, hmem⟩
  · rcases h.only hi with hi | hown | ⟨name, f, hf, hin, hout, hmem⟩
    · exact .inl hi
    · exact .inr (.inl (List.mem_append_left _ hown))
    · exact .inr (.inr ⟨name, f, hf, h'.subset hin, hout, hmem⟩)
  · exact .inr (.inl (List.mem_append_right _ hown))
  · exact .inr (.inr ⟨name, f, hf, hin, fun hmem => hout (h.subset hmem), hmem⟩)

/-- Entering a node adds it to what has been met. -/
theorem Grows.enter (h : Grows fragments own (i :: visited) visited') :
    Grows fragments (i :: own) visited visited' := by
  refine ⟨fun j hj => h.subset (List.mem_cons_of_mem _ hj), fun {j} hj => ?_⟩
  rcases h.only hj with hj | hown | ⟨name, f, hf, hin, hout, hmem⟩
  · exact (List.mem_cons.mp hj).elim (fun hj => .inr (.inl (hj ▸ List.mem_cons_self))) .inl
  · exact .inr (.inl (List.mem_cons_of_mem _ hown))
  · exact .inr (.inr ⟨name, f, hf, hin, fun hmem => hout (List.mem_cons_of_mem _ hmem), hmem⟩)

/-- The nodes of a fragment that is entered need not be one's own. -/
theorem Grows.fragment (hf : Dict.find? name fragments = some f) (hfirst : f.id ∉ visited)
    (h : Grows fragments (ids f.ofFragment) visited visited') (hin : f.id ∈ visited') :
    Grows fragments [] visited visited' := by
  refine ⟨h.subset, fun {i} hi => ?_⟩
  rcases h.only hi with hi | hown | hother
  · exact .inl hi
  · exact .inr (.inr ⟨name, f, hf, hin, hfirst, hown⟩)
  · exact .inr (.inr hother)

/-- Entering a fresh node keeps everything sound. -/
theorem Sound.enter (h : Sound fragments opened course)
    (hfresh : Fresh fragments course.visited (i :: own)) :
    Sound fragments opened { course with visited := i :: course.visited } := by
  refine ⟨h.memo, fun {name f} hf hvisited => ?_, fun {name f j} hf hvisited hj hmem => ?_⟩
  · rcases List.mem_cons.mp hvisited with rfl | hvisited
    · have hfirst : f.id ∉ course.visited := hfresh.unmet List.mem_cons_self
      exact absurd List.mem_cons_self (hfresh.apart hf hfirst List.mem_cons_self)
    · exact h.entered hf hvisited
  · have hfirst : f.id ∉ course.visited := fun hmem => hvisited (List.mem_cons_of_mem _ hmem)
    rcases List.mem_cons.mp hmem with rfl | hmem
    · exact hfresh.apart hf hfirst hj List.mem_cons_self
    · exact h.unmet hf hfirst hj hmem

/-- Entering a fragment opens it. -/
theorem Sound.openFragment (hdistinct : Distinct fragments) (h : Sound fragments opened course)
    (hf : Dict.find? name fragments = some f) :
    Sound fragments (name :: opened) { course with visited := f.id :: course.visited } := by
  refine ⟨h.memo, fun {other g} hg hvisited => ?_, fun {other g j} hg hvisited hj hmem => ?_⟩
  · rcases List.mem_cons.mp hvisited with hid | hvisited
    · have hname : other = name :=
        hdistinct.apart hg hf (List.mem_cons.mpr (.inl rfl)) (hid ▸ List.mem_cons_self)
      exact .inl (hname ▸ List.mem_cons_self)
    · exact (h.entered hg hvisited).imp_left (List.mem_cons_of_mem _)
  · have hfirst : g.id ∉ course.visited := fun hmem => hvisited (List.mem_cons_of_mem _ hmem)
    rcases List.mem_cons.mp hmem with rfl | hmem
    · obtain rfl : other = name := hdistinct.apart hg hf hj List.mem_cons_self
      obtain rfl := Option.some.inj (hg.symm.trans hf)
      exact hvisited List.mem_cons_self
    · exact h.unmet hg hfirst hj hmem

/-- What lies below a fragment is fresh after the fragment has been entered. -/
theorem Sound.fresh (hdistinct : Distinct fragments) (h : Sound fragments opened course)
    (hf : Dict.find? name fragments = some f) (hfirst : f.id ∉ course.visited) :
    Fresh fragments (f.id :: course.visited)
      ((selectionHandles f.value.selections).flatMap ids) := by
  have hids : ids f.ofFragment = f.id :: (selectionHandles f.value.selections).flatMap ids :=
    ids_eq f.ofFragment
  obtain ⟨hnot, hnodup⟩ := List.nodup_cons.mp (hids ▸ hdistinct.nodup hf)
  refine ⟨hnodup, fun {i} hi hmem => ?_, fun {other g i} hg hvisited hi hown => ?_⟩
  · rcases List.mem_cons.mp hmem with rfl | hmem
    · exact hnot hi
    · exact h.unmet hf hfirst (hids ▸ List.mem_cons_of_mem _ hi) hmem
  · obtain rfl : other = name := hdistinct.apart hg hf hi (hids ▸ List.mem_cons_of_mem _ hown)
    obtain rfl := Option.some.inj (hg.symm.trans hf)
    exact hvisited List.mem_cons_self

/-- Leaving a fragment closes it, and its depth is remembered. -/
theorem Sound.closeFragment {d : Nat} (h : Sound fragments (name :: opened) course)
    (hf : Dict.find? name fragments = some f)
    (hdepth : HasDepth (Dict.find? · fragments) f.value.selections.items d) (accumulate : Nat) :
    Sound fragments opened
      { course with own := Dict.insert name d course.own, accumulate } := by
  refine ⟨fun {other d'} hmemo => ?_, fun {other g} hg hvisited => ?_, h.unmet⟩
  · rw [Dict.find?_insert] at hmemo
    split at hmemo
    · next hname =>
      obtain rfl := Option.some.inj hmemo
      exact ⟨f, hname ▸ hf, hdepth⟩
    · exact h.memo hmemo
  · simp only [Dict.find?_insert]
    split
    · exact .inr ⟨d, rfl⟩
    · next hname =>
      refine (h.entered hg hvisited).imp_left fun hmem => ?_
      exact (List.mem_cons.mp hmem).resolve_left (Ne.symm hname)

end Invariant

/-! ### Visits -/

/-- The walk that computes depths. -/
def depthPlan (fragments : Dict (Ref Fragment)) : Plan Handle Nat DepthVar where
  children := children fragments
  initial := 0

/-- What a part of the recursion comes to: it gives the depth of some selections and has met nothing
but their nodes and those of fragments, or it says what is wrong with them. -/
def Outcome {α : Type} (fragments : Dict (Ref Fragment)) (opened : List String)
    (visited own : List NodeId) (items : List Selection) (P : α → DepthCourse → Nat → Prop) :
    Except Stop α × DepthCourse → Prop
  | (.ok a, course) => Sound fragments opened course ∧
      Grows fragments own visited course.visited ∧
      ∃ d, HasDepth (Dict.find? · fragments) items d ∧ P a course d
  | (.error (.failed e), _) => Fault fragments items e
  | (.error .quit, _) => False
  | (.error .exhausted, _) => True

section Visits

variable {fragments : Dict (Ref Fragment)} {opened opened' : List String} {course : DepthCourse}
  {items items' : List Selection} {visited visited' own own' : List NodeId}

theorem Outcome.bind {α γ : Type} {P : α → DepthCourse → Nat → Prop}
    {P' : γ → DepthCourse → Nat → Prop} {x : Descent (Dict Nat) Handle Nat α}
    {f : α → Descent (Dict Nat) Handle Nat γ}
    (hx : Outcome fragments opened visited own items P (x.runWith course))
    (hfault : ∀ {e}, Fault fragments items e → Fault fragments items' e)
    (hnext : ∀ a course' d, Sound fragments opened course' →
      Grows fragments own visited course'.visited → HasDepth (Dict.find? · fragments) items d →
      P a course' d →
      Outcome fragments opened' visited' own' items' P' ((f a).runWith course')) :
    Outcome fragments opened' visited' own' items' P' ((x >>= f).runWith course) := by
  cases hrun : x.runWith course with
  | mk out course' =>
    rw [hrun] at hx
    match out, hx with
    | .ok a, ⟨hsound, hgrows, d, hdepth, hp⟩ =>
      rw [Descent.runWith_bind_ok hrun]
      exact hnext a course' d hsound hgrows hdepth hp
    | .error (.failed e), hx =>
      rw [Descent.runWith_bind_error hrun]
      exact hfault hx
    | .error .exhausted, _ =>
      rw [Descent.runWith_bind_error hrun]
      trivial

theorem Outcome.imp {α : Type} {P P' : α → DepthCourse → Nat → Prop}
    {result : Except Stop α × DepthCourse}
    (h : Outcome fragments opened visited own items P result)
    (himp : ∀ a course d, P a course d → P' a course d) :
    Outcome fragments opened visited own items P' result := by
  match result, h with
  | (.ok a, course), ⟨hsound, hgrows, d, hdepth, hp⟩ =>
    exact ⟨hsound, hgrows, d, hdepth, himp a course d hp⟩
  | (.error (.failed e), _), h => exact h
  | (.error .exhausted, _), _ => trivial

/-- A node has got its depth, and a root has handed it on. -/
def Rated (location : Option Location) (here : DepthFacts) (course : DepthCourse) (d : Nat) : Prop :=
  here.vars.get? () = some d ∧ (location = none → course.accumulate = d)

/-- Visits of fresh nodes that are no fragments give the depths of the selections they stand for. -/
def RatesPlaces (fragments : Dict (Ref Fragment)) (levels : Nat) : Prop :=
  ∀ {above : List DepthFacts} {h : Handle} {location : Option Location} {accumulate : Nat}
    {opened : List String} {course : DepthCourse},
    (∀ f, h.value ≠ .definition (.fragment f)) → Sound fragments opened course →
    Fresh fragments course.visited (ids h) → Beneath fragments opened (scope h.value) →
    Outcome fragments opened course.visited (ids h) (scope h.value) (Rated location)
      ((visit (depthPlan fragments) (sightVisitor fragments) levels above
        (.discover h location accumulate)).runWith course)

/-- Visits of fragments give their depths. -/
def RatesFragments (fragments : Dict (Ref Fragment)) (levels : Nat) : Prop :=
  ∀ {above : List DepthFacts} {name : String} {ds : Block Directive} {f : Ref Fragment}
    {location : Option Location} {accumulate : Nat} {opened : List String} {course : DepthCourse},
    Dict.find? name fragments = some f → location.isSome → Sound fragments opened course →
    Beneath fragments opened [.spread name ds] →
    Outcome fragments opened course.visited [] [.spread name ds] (Rated location)
      ((visit (depthPlan fragments) (sightVisitor fragments) levels above
        (.discover f.ofFragment location accumulate)).runWith course)

theorem foldl_max (l : List Nat) (n : Nat) : l.foldl max n = max n (l.foldl max 0) := by
  induction l generalizing n with
  | nil => simp
  | cons m l ih =>
    rw [List.foldl_cons, List.foldl_cons, ih, ih (max 0 m), Nat.zero_max, Nat.max_assoc]

theorem deepest_cons {here : DepthFacts} {d : Nat} (h : here.vars.get? () = some d)
    (heres : List DepthFacts) : deepest (here :: heres) = max d (deepest heres) := by
  rw [deepest, List.filterMap_cons, h, List.foldl_cons, foldl_max, Nat.zero_max, deepest]

/-- Visiting nodes one after the other gives the largest of their depths. -/
theorem RatesPlaces.mapM {levels : Nat} (hplaces : RatesPlaces fragments levels)
    {above : List DepthFacts} {accumulate : Nat} {ps : List (Location × Handle)}
    (hps : ∀ p ∈ ps, ∀ f, p.2.value ≠ .definition (.fragment f))
    (hsound : Sound fragments opened course)
    (hfresh : Fresh fragments course.visited (ps.flatMap fun p => ids p.2))
    (hbeneath : Beneath fragments opened (ps.flatMap fun p => scope p.2.value)) :
    Outcome fragments opened course.visited (ps.flatMap fun p => ids p.2)
      (ps.flatMap fun p => scope p.2.value)
      (fun heres _ d => heres.length = ps.length ∧ deepest heres = d)
      ((ps.mapM fun p => visit (depthPlan fragments) (sightVisitor fragments) levels above
        (.discover p.2 (some p.1) accumulate)).runWith course) := by
  induction ps generalizing course with
  | nil => exact ⟨hsound, Grows.refl _, 0, HasDepth.nil, rfl, rfl⟩
  | cons p ps ih =>
    rw [List.mapM_cons]
    simp only [List.flatMap_cons] at hfresh hbeneath ⊢
    refine Outcome.bind (hplaces (hps p List.mem_cons_self) hsound hfresh.left
      (hbeneath.mono fun _ => Spreads.append_left)) (fun h => h.mono fun _ => Spreads.append_left) ?_
    intro here course' d hsound' hgrows hdepth hrated
    refine Outcome.bind (ih (fun p hp => hps p (List.mem_cons_of_mem _ hp)) hsound'
      (hfresh.right hgrows) (hbeneath.mono fun _ => Spreads.append_right))
      (fun h => h.mono fun _ => Spreads.append_right) ?_
    intro heres course'' d' hsound'' hgrows' hdepth' hheres
    refine ⟨hsound'', hgrows.trans hgrows', max d d', hdepth.append hdepth', ?_, ?_⟩
    · rw [List.length_cons, List.length_cons, hheres.1]
    · rw [deepest_cons hrated.1, hheres.2]

/-- Leaving a node gives it its depth. -/
theorem Outcome.leave {above : List DepthFacts} {here : DepthFacts} {below : Children DepthFacts}
    {P : DepthFacts → DepthCourse → Nat → Prop}
    (h : ∀ here' : DepthFacts,
      here'.vars.get? () = some (depthOf here.node.value (deepest below.flatten)) →
      Outcome fragments opened visited own items P (.ok here', { course with
        own := remember here.node.value (deepest below.flatten) course.own
        accumulate := (if here.location.isNone then
          some (depthOf here.node.value (deepest below.flatten)) else none).getD
            course.accumulate })) :
    Outcome fragments opened visited own items P
      ((consult (depthPlan fragments).rootVars (sightVisitor fragments) .leave above (some below)
        here >>= fun p => heed above p.2 p.1).runWith course) := by
  rw [Descent.runWith_bind_ok (consult_leave below)]
  exact h _ (Vars.get?_insert_self _ _ _)

/-- The first visit of a node that may be entered. -/
theorem Outcome.first {levels : Nat} {above : List DepthFacts} {h : Handle}
    {location : Option Location} {accumulate : Nat} {P : DepthFacts → DepthCourse → Nat → Prop}
    (hfirst : h.id ∉ course.visited)
    (hspread : ∀ name, h.value.spread? = some name → ∃ f, Dict.find? name fragments = some f)
    (hnext : ∀ here : DepthFacts, here.node = h → here.location = location →
      Outcome fragments opened visited own items P
        ((((children fragments h).located.mapM fun p =>
          visit (depthPlan fragments) (sightVisitor fragments) levels (here :: above)
            (.discover p.2 (some p.1) course.accumulate)) >>= fun heres =>
          consult (depthPlan fragments).rootVars (sightVisitor fragments) .leave above
            (some ((children fragments h).regroup heres)) here >>=
              fun p => heed above p.2 p.1).runWith
          { course with visited := h.id :: course.visited })) :
    Outcome fragments opened visited own items P
      ((visit (depthPlan fragments) (sightVisitor fragments) (levels + 1) above
        (.discover h location accumulate)).runWith course) := by
  have hnot : course.visited.contains h.id = false := by
    simpa using hfirst
  rw [runWith_visit_first hnot, consult_enter hspread]
  exact hnext _ rfl rfl

/-- The visit of a fragment that was entered before. -/
theorem Outcome.again {levels : Nat} {above : List DepthFacts} {f : Ref Fragment}
    {location : Option Location} {accumulate : Nat} {P : DepthFacts → DepthCourse → Nat → Prop}
    (hagain : f.id ∈ course.visited)
    (hknown : ∀ (here : DepthFacts) (d : Nat), Dict.find? f.value.name course.own = some d →
      here.vars.get? () = some d →
      Outcome fragments opened visited own items P (.ok here, course))
    (hunknown : Dict.find? f.value.name course.own = none → Outcome fragments opened visited own items
      P (.error (.failed (.fragmentCycle f.value.name)), course)) :
    Outcome fragments opened visited own items P
      ((visit (depthPlan fragments) (sightVisitor fragments) (levels + 1) above
        (.discover f.ofFragment location accumulate)).runWith course) := by
  have hmem : course.visited.contains f.id = true := by
    simpa using hagain
  rw [runWith_visit_again hmem]
  cases hmemo : Dict.find? f.value.name course.own with
  | some d =>
    rw [Descent.runWith_bind_ok ((consult_backRef rfl).trans (by rw [hmemo]))]
    exact hknown _ d hmemo (Vars.get?_insert_self _ _ _)
  | none =>
    rw [Descent.runWith_bind_error ((consult_backRef rfl).trans (by rw [hmemo]))]
    exact hunknown hmemo

/-- The visits of the selections of a node. -/
theorem RatesPlaces.selections {levels : Nat} (hplaces : RatesPlaces fragments levels)
    {above : List DepthFacts} {accumulate : Nat} {h : Handle} (hspread : h.value.spread? = none)
    (hsound : Sound fragments opened course)
    (hfresh : Fresh fragments course.visited
      ((selectionHandles h.value.selections).flatMap ids))
    (hbeneath : Beneath fragments opened h.value.selections.items) :
    Outcome fragments opened course.visited ((selectionHandles h.value.selections).flatMap ids)
      h.value.selections.items
      (fun heres _ d => deepest ((children fragments h).regroup heres).flatten = d)
      (((children fragments h).located.mapM fun p =>
        visit (depthPlan fragments) (sightVisitor fragments) levels above
          (.discover p.2 (some p.1) accumulate)).runWith course) := by
  have hchildren : children fragments h = selectionChildren h := by
    rw [children, hspread]
  have hflatten : (selectionChildren h).flatten = selectionHandles h.value.selections :=
    List.append_nil _
  have hmap : ∀ {γ : Type} (g : Handle → List γ), (selectionChildren h).located.flatMap
      (fun p => g p.2) = (selectionHandles h.value.selections).flatMap g := by
    intro γ g
    rw [← hflatten, ← Children.map_located, List.flatMap_map]
  have hplace : ∀ p ∈ (selectionChildren h).located, ∀ f,
      p.2.value ≠ .definition (.fragment f) := by
    intro p hp f
    have hmem := mem_flatten_of_located hp
    rw [hflatten, selectionHandles, Block.handles] at hmem
    obtain ⟨r, -, hr⟩ := List.mem_map.mp hmem
    rw [← hr]
    intro h
    cases h
  rw [hchildren]
  rw [← hmap ids] at hfresh ⊢
  rw [← flatMap_scope, ← hmap fun h => scope h.value] at hbeneath ⊢
  refine (hplaces.mapM hplace hsound hfresh hbeneath).imp fun heres _ d hheres => ?_
  rw [Children.flatten_regroup _ _ (hheres.1.trans (length_located _))]
  exact hheres.2

theorem depthOf_hasDepth {h : Handle} {d : Nat} (hspread : h.value.spread? = none)
    (hdepth : HasDepth (Dict.find? · fragments) h.value.selections.items d) :
    HasDepth (Dict.find? · fragments) (scope h.value) (depthOf h.value d) := by
  obtain ⟨id, value⟩ := h
  rcases value with _ | (_ | _) | _ | (_ | _ | _) | _ | _
  case selection.field => exact hdepth.field
  case selection.inline => exact hdepth.inline
  case selection.spread => simp [Element.spread?] at hspread
  all_goals exact hdepth

theorem spreads_scope {h : Handle} (hspread : h.value.spread? = none) {name : String}
    (hname : Spreads (Dict.find? · fragments) h.value.selections.items name) :
    Spreads (Dict.find? · fragments) (scope h.value) name := by
  obtain ⟨id, value⟩ := h
  rcases value with _ | (_ | _) | _ | (_ | _ | _) | _ | _
  case selection.field | selection.inline =>
    refine hname.mono ?_
    simp [scope, Selection.spreadsList, Selection.spreads, Element.selections]
  case selection.spread => simp [Element.spread?] at hspread
  all_goals exact hname

theorem remember_of_ne {e : Element} (h : ∀ f, e ≠ .definition (.fragment f)) (inner : Nat)
    (memo : Dict Nat) : remember e inner memo = memo := by
  rcases e with _ | (_ | f) | _ | _ | _ | _
  case definition.fragment => exact absurd rfl (h f)
  all_goals rfl

/-- Visiting a spread, from visits of fragments one level further down. -/
theorem RatesFragments.spread {levels : Nat} (hfragments : RatesFragments fragments levels)
    {above : List DepthFacts} {h : Handle} {location : Option Location} {accumulate : Nat}
    {name : String} {ds : Block Directive} (hvalue : h.value = .selection (.spread name ds))
    (hsound : Sound fragments opened course) (hfresh : Fresh fragments course.visited [h.id])
    (hbeneath : Beneath fragments opened [.spread name ds]) :
    Outcome fragments opened course.visited [h.id] [.spread name ds] (Rated location)
      ((visit (depthPlan fragments) (sightVisitor fragments) (levels + 1) above
        (.discover h location accumulate)).runWith course) := by
  have hfirst : h.id ∉ course.visited := hfresh.unmet List.mem_cons_self
  have hspread : h.value.spread? = some name := by rw [hvalue, Element.spread?]
  cases hf : Dict.find? name fragments with
  | none =>
    have hnot : course.visited.contains h.id = false := by
      simpa using hfirst
    rw [runWith_visit_first hnot, consult_enter_unknown hspread hf]
    exact .unknown (.direct (by simp [Selection.spreadsList, Selection.spreads])) hf
  | some f =>
    have hchildren : children fragments h = ⟨[(.fragment, [f.ofFragment])]⟩ := by
      rw [children, hspread]
      simp only [hf]
    refine Outcome.first hfirst (fun n hn => ⟨f, ?_⟩) ?_
    · rw [← Option.some.inj (hspread.symm.trans hn)]
      exact hf
    intro here hnode hlocation
    rw [hchildren]
    -- the fragment is the only child
    have hchild : Outcome fragments opened (h.id :: course.visited) [] [.spread name ds]
        (fun heres _ d => deepest heres = d ∧ heres.length = 1)
        (([((⟨.fragment, 0⟩ : Location), f.ofFragment)].mapM fun p =>
          visit (depthPlan fragments) (sightVisitor fragments) levels (here :: above)
            (.discover p.2 (some p.1) course.accumulate)).runWith
          { course with visited := h.id :: course.visited }) := by
      rw [List.mapM_cons]
      refine Outcome.bind (hfragments hf rfl (hsound.enter hfresh) hbeneath) id ?_
      intro here' course' d hsound' hgrows hdepth hrated
      exact ⟨hsound', hgrows, d, hdepth, (deepest_cons hrated.1 []).trans (Nat.max_zero d), rfl⟩
    refine Outcome.bind hchild id ?_
    intro heres course' d hsound' hgrows hdepth hheres
    refine Outcome.leave fun here' hvars => ?_
    rw [Children.flatten_regroup _ _ hheres.2, hheres.1, hnode, hvalue] at hvars ⊢
    refine ⟨⟨hsound'.memo, hsound'.entered, hsound'.unmet⟩, hgrows.enter, d, hdepth, hvars,
      fun hnone => ?_⟩
    rw [hlocation, hnone]
    rfl

/-- Visiting a fresh node, from visits one level further down. -/
theorem RatesPlaces.succ {levels : Nat} (hplaces : RatesPlaces fragments levels)
    (hfragments : RatesFragments fragments levels) : RatesPlaces fragments (levels + 1) := by
  intro above h location accumulate opened course hh hsound hfresh hbeneath
  rw [ids_eq] at hfresh ⊢
  cases hspread : h.value.spread? with
  | none =>
    refine Outcome.first (hfresh.unmet List.mem_cons_self)
      (fun name hname => by simp [hspread] at hname) ?_
    intro here hnode hlocation
    refine Outcome.bind (hplaces.selections hspread (hsound.enter hfresh) hfresh.enter
      (hbeneath.mono fun _ => spreads_scope hspread))
      (fun h => h.mono fun _ => spreads_scope hspread) ?_
    intro heres course' d hsound' hgrows hdepth hheres
    refine Outcome.leave fun here' hvars => ?_
    rw [hnode, hheres] at hvars ⊢
    refine ⟨?_, hgrows.enter, _, depthOf_hasDepth hspread hdepth, hvars, fun hnone => ?_⟩
    · rw [remember_of_ne hh]
      exact ⟨hsound'.memo, hsound'.entered, hsound'.unmet⟩
    · rw [hlocation, hnone]
      rfl
  | some name =>
    obtain ⟨ds, hvalue⟩ : ∃ ds, h.value = .selection (.spread name ds) := by
      obtain ⟨id, value⟩ := h
      rcases value with _ | _ | _ | (_ | ⟨n, ds⟩ | _) | _ | _
      case selection.spread =>
        obtain rfl := Option.some.inj hspread
        exact ⟨ds, rfl⟩
      all_goals simp [Element.spread?] at hspread
    have hinner : (selectionHandles h.value.selections).flatMap ids = [] := by
      rw [hvalue]
      rfl
    rw [hinner] at hfresh ⊢
    have hscope : scope h.value = [.spread name ds] := by rw [hvalue, scope]
    rw [hscope] at hbeneath ⊢
    exact hfragments.spread hvalue hsound hfresh hbeneath

/-- Visiting a fragment, from visits one level further down. -/
theorem RatesFragments.succ (hdistinct : Distinct fragments) {levels : Nat}
    (hplaces : RatesPlaces fragments levels) : RatesFragments fragments (levels + 1) := by
  intro above name ds f location accumulate opened course hf hlocation hsound hbeneath
  have hname : Spreads (Dict.find? · fragments) [.spread name ds] name :=
    .direct (by simp [Selection.spreadsList, Selection.spreads])
  have hinside : ∀ other, Spreads (Dict.find? · fragments) f.value.selections.items other →
      Spreads (Dict.find? · fragments) [.spread name ds] other :=
    fun other hother => hname.trans hf hother
  by_cases hfirst : f.id ∈ course.visited
  · -- the fragment was entered before: its depth is remembered, or it is open
    refine Outcome.again hfirst (fun here d hmemo hvars => ?_) fun hmemo => ?_
    · rw [hdistinct.name hf] at hmemo
      obtain ⟨g, hg, hdepth⟩ := hsound.memo hmemo
      obtain rfl := Option.some.inj (hf.symm.trans hg)
      refine ⟨hsound, Grows.refl _, d, hdepth.spread hf, hvars, fun hnone => ?_⟩
      simp [hnone] at hlocation
    · rw [hdistinct.name hf] at hmemo ⊢
      have hopen : name ∈ opened := (hsound.entered hf hfirst).resolve_right (by simp [hmemo])
      exact .cycle hname hf (hbeneath name f hopen hf name hname)
  · refine Outcome.first hfirst (fun n hn => by cases hn) ?_
    intro here hnode _
    have hopened : Beneath fragments (name :: opened) f.value.selections.items := by
      intro n g hn hg other hother
      rcases List.mem_cons.mp hn with rfl | hn
      · obtain rfl := Option.some.inj (hf.symm.trans hg)
        exact hother
      · exact hbeneath n g hn hg other (hinside other hother)
    refine Outcome.bind (hplaces.selections (h := f.ofFragment) rfl
      (hsound.openFragment hdistinct hf) (hsound.fresh hdistinct hf hfirst) hopened)
      (fun h => h.mono hinside) ?_
    intro heres course' d hsound' hgrows hdepth hheres
    refine Outcome.leave fun here' hvars => ?_
    rw [hnode, hheres] at hvars ⊢
    have hremember : remember f.ofFragment.value d course'.own = Dict.insert name d course'.own := by
      rw [← hdistinct.name hf]
      rfl
    have hgrows' : Grows fragments (ids f.ofFragment) course.visited course'.visited := by
      rw [ids_eq]
      exact hgrows.enter
    rw [hremember]
    refine ⟨hsound'.closeFragment hf hdepth _, ?_, d, hdepth.spread hf, hvars, fun hnone => ?_⟩
    · exact hgrows'.fragment hf hfirst (hgrows.subset List.mem_cons_self)
    · simp [hnone] at hlocation

/-- **Visits give depths**, or say what is wrong. -/
theorem rates (hdistinct : Distinct fragments) (levels : Nat) :
    RatesPlaces fragments levels ∧ RatesFragments fragments levels := by
  induction levels with
  | zero =>
    refine ⟨?_, ?_⟩
    · intro above h location accumulate opened course _ _ _ _
      trivial
    · intro above name ds f location accumulate opened course _ _ _ _
      trivial
  | succ levels ih =>
    exact ⟨RatesPlaces.succ ih.1 ih.2, RatesFragments.succ hdistinct ih.1⟩

end Visits

end Arborist.Analysis.Depth
