import Arborist.Analysis.FragmentOrder
import Arborist.Proofs.Limits
import Arborist.Proofs.NestedSelections

/-!
# The walk that notes spreads

`spreadNames` finds what a fragment spreads by a walk over its selections. The walk ends within its
limit, and the names it notes are those of **all spreads in the fragment, at any nesting**: a place
that is met again is passed over, but what lies below it was met before (`spreadNames_eq`).

* `sightVisitor` is the visitor of the walk, seeing no more than a `Sight`, so the walk is a
  recursion.
* `Settled` is the invariant of the recursion: a node that was met is open, or everything below it
  was met as well. A node is never met below itself, so a node that is met again is not open.
* `visit_notes`: a visit notes what is met for the first time in its node (`Course.after`).
-/

namespace Arborist.Analysis

open Query Traversal

namespace Spreads

/-- What the walk threads through. -/
abbrev NamesCourse := Course (List String) Handle Unit

/-- What the walk knows about a node. -/
abbrev NamesFacts := Facts Handle Unit NoVar

/-! ### The visitor -/

/-- The visitor that notes the names of spreads, seeing what a cursor shows. -/
def sightVisitor : SightVisitor (List String) Handle Unit NoVar where
  enter := do
    let sight ← Callback.view
    match sight.here.node.value.spread? with
    | some name =>
      modify (· ++ [name])
      pure .proceed
    | none => pure .proceed

/-- The visitor sees no more than a cursor shows. -/
theorem visitor_eq : spreadVisitor = sightVisitor.comap Cursor.sight := by
  have henter : noteSpread = sightVisitor.enter.comap Cursor.sight := by
    refine Callback.comap_view Cursor.sight fun cursor names => ?_
    simp only [Cursor.sight, Context.facts]
    cases cursor.here.node.value.spread? <;> rfl
  rw [spreadVisitor, henter]
  rfl

/-- The visitor makes no requests at all. -/
theorem sightVisitor_requests (P : Request Handle Unit NoVar → Prop) :
    sightVisitor.Requests P := by
  intro phase names
  cases phase with
  | enter =>
    intro sight
    change Program.Requests _ ((match sight.here.node.value.spread? with
      | some name => _
      | none => _ : Callback (List String) _ _ Control) names)
    cases sight.here.node.value.spread? <;> trivial
  | leave => trivial
  | backRef => trivial

/-- The walk over the selections of a fragment. -/
def spreadPlan : Plan Handle Unit NoVar where
  children := selectionChildren
  initial := ()

section Consult

variable {above : List NamesFacts} {below : Option (Children NamesFacts)} {met : NamesFacts}
  {course : NamesCourse}

/-- The facts of a node for which a callback is made. -/
def reach (met : NamesFacts) (phase : Phase) : NamesFacts :=
  { met with current := (), next := none, phase := some phase }

theorem consult_enter : (consult spreadPlan.rootVars sightVisitor .enter above below met).runWith
    course = (.ok (.proceed, reach met .enter),
      { course with own := course.own ++ met.node.value.spread?.toList }) := by
  refine consult_of_ok (d := ⟨reach met .enter, course.edits⟩) ?_
  change (match met.node.value.spread? with
    | some name => _
    | none => _ : Callback (List String) _ _ Control).runOn _ _ _ _ = _
  cases met.node.value.spread? with
  | none =>
    rw [Option.toList_none, List.append_nil]
    rfl
  | some name => rfl

/-- Nothing is done when a node is left or met again. -/
theorem consult_other {phase : Phase} (h : phase ≠ .enter) :
    (consult spreadPlan.rootVars sightVisitor phase above below met).runWith course =
      (.ok (.proceed, reach met phase), course) := by
  cases phase with
  | enter => exact absurd rfl h
  | leave => rfl
  | backRef => rfl

end Consult

/-! ### Visits -/

/-- What the recursion has come to after it was led over some nodes. -/
def after (course : NamesCourse) (nodes : List Handle) : NamesCourse :=
  { course with
    own := course.own ++ (firstMet course.visited nodes).filterMap (·.value.spread?)
    visited := metAfter course.visited nodes }

/-- Every node that was met is **open**, as those of the path are, or all that lies below it was met
too. -/
def Settled (nodes path : List Handle) (visited : List NodeId) : Prop :=
  ∀ n ∈ nodes, n.id ∈ visited → n ∈ path ∨ ∀ m ∈ n.within, m.id ∈ visited

section Visits

variable {nodes path more : List Handle} {visited : List NodeId} {course : NamesCourse} {h : Handle}

theorem after_nil (course : NamesCourse) : after course [] = course := by
  rw [after, firstMet, List.filterMap_nil, List.append_nil]
  rfl

theorem after_append (course : NamesCourse) (nodes more : List Handle) :
    after (after course nodes) more = after course (nodes ++ more) := by
  simp only [after, firstMet_append, metAfter_append, List.filterMap_append, List.append_assoc]

theorem after_met (hmet : ∀ n ∈ nodes, n.id ∈ course.visited) : after course nodes = course := by
  rw [after, metAfter, firstMet_eq_nil hmet, List.filterMap_nil, List.append_nil]
  rfl

theorem after_new (hnew : h.id ∉ course.visited) : after course [h] =
    { course with own := course.own ++ h.value.spread?.toList
                  visited := h.id :: course.visited } := by
  rw [after, metAfter, firstMet_cons_new hnew, firstMet, List.filterMap_cons, List.filterMap_nil]
  cases h.value.spread? <;> rfl

/-- Nodes that are met with all that lies below them are settled. -/
theorem Settled.after (hcoherent : Coherent nodes) (h : Settled nodes path visited)
    (hmore : more ⊆ nodes) (hclosed : ∀ n ∈ more, n.within ⊆ more) :
    Settled nodes path (metAfter visited more) := by
  intro n hn hmet
  have hsub : ∀ {i}, i ∈ visited → i ∈ metAfter visited more := fun hi =>
    mem_metAfter_iff.mpr (.inl hi)
  rcases mem_metAfter_iff.mp hmet with hold | ⟨m, hm, hid⟩
  · exact (h n hn hold).imp id fun hall m hm => hsub (hall m hm)
  · obtain rfl := hcoherent m (hmore hm) n hn hid
    exact .inr fun k hk => mem_metAfter_iff.mpr (.inr ⟨k, hclosed m hm hk, rfl⟩)

/-- Entering a node opens it. -/
theorem Settled.enter (hcoherent : Coherent nodes) (h : Settled nodes path visited) {n : Handle}
    (hn : n ∈ nodes) : Settled nodes (n :: path) (n.id :: visited) := by
  intro m hm hmet
  rcases List.mem_cons.mp hmet with hid | hmet
  · exact .inl (hcoherent m hm n hn hid ▸ List.mem_cons_self)
  · exact (h m hm hmet).imp (List.mem_cons_of_mem _) fun hall k hk =>
      List.mem_cons_of_mem _ (hall k hk)

/-- Visits of nodes that are smaller than all open ones note what is met in them for the first
time. -/
def Notes (nodes : List Handle) (levels : Nat) : Prop :=
  ∀ (path : List Handle) (course : NamesCourse) (n : Handle) (above : List NamesFacts)
    (location : Option Location) (accumulate : Unit), n.within ⊆ nodes → n.within.length ≤ levels →
    (∀ m ∈ path, n.within.length < m.within.length) → Settled nodes path course.visited →
    ∃ here, (visit spreadPlan sightVisitor levels above (.discover n location accumulate)).runWith
      course = (.ok here, after course n.within)

/-- Visits of several nodes, one after the other. -/
theorem Notes.mapM {levels : Nat} (hnotes : Notes nodes levels) (hcoherent : Coherent nodes)
    {places : List (Location × Handle)} (above : List NamesFacts) (accumulate : Unit)
    (hplaces : ∀ p ∈ places, p.2.within ⊆ nodes ∧ p.2.within.length ≤ levels ∧
      ∀ m ∈ path, p.2.within.length < m.within.length)
    (hsettled : Settled nodes path course.visited) :
    ∃ heres, (places.mapM fun p => visit spreadPlan sightVisitor levels above
      (.discover p.2 (some p.1) accumulate)).runWith course =
        (.ok heres, after course (places.flatMap fun p => p.2.within)) := by
  induction places generalizing course with
  | nil => exact ⟨[], by rw [List.flatMap_nil, after_nil]; rfl⟩
  | cons p places ih =>
    obtain ⟨hsub, hlevels, hsmaller⟩ := hplaces p List.mem_cons_self
    obtain ⟨here, hfirst⟩ := hnotes path course p.2 above (some p.1) accumulate hsub hlevels hsmaller
      hsettled
    have hsettled' : Settled nodes path (after course p.2.within).visited :=
      hsettled.after hcoherent hsub fun n hn => Handle.within_subset hn
    obtain ⟨heres, hrest⟩ := ih (fun q hq => hplaces q (List.mem_cons_of_mem _ hq)) hsettled'
    refine ⟨here :: heres, ?_⟩
    rw [List.mapM_cons, Descent.runWith_bind_ok hfirst, Descent.runWith_bind_ok hrest,
      List.flatMap_cons, ← after_append]
    rfl

/-- The nodes below a node, from the places of its selections. -/
theorem flatMap_located_within (h : Handle) :
    ((selectionChildren h).located.flatMap fun p => p.2.within) = h.value.inner := by
  rw [Element.inner_eq, ← map_located_selections, List.flatMap_map]

theorem mem_of_located {p : Location × Handle} (hp : p ∈ (selectionChildren h).located) :
    p.2 ∈ selectionHandles h.value.selections :=
  map_located_selections h ▸ List.mem_map_of_mem hp

/-- **A visit notes what is met for the first time** in its node. -/
theorem visit_notes (hcoherent : Coherent nodes) (levels : Nat) : Notes nodes levels := by
  induction levels with
  | zero =>
    intro path course h above location accumulate _ hlevels _ _
    simp [Handle.within] at hlevels
  | succ levels ih =>
    intro path course h above location accumulate hsub hlevels hsmaller hsettled
    have hh : h ∈ nodes := hsub List.mem_cons_self
    by_cases hmet : h.id ∈ course.visited
    · -- it is smaller than all open nodes, so it is none of them
      have hall := (hsettled h hh hmet).resolve_left fun hpath =>
        Nat.lt_irrefl _ (hsmaller h hpath)
      have hagain : course.visited.contains h.id = true := List.contains_iff_mem.mpr hmet
      rw [after_met hall, runWith_visit_again hagain,
        Descent.runWith_bind_ok (consult_other (by decide))]
      exact ⟨_, rfl⟩
    · have hfirst : course.visited.contains h.id = false := by
        simpa using hmet
      have hbelow : ∀ p ∈ (selectionChildren h).located, p.2.within ⊆ nodes ∧
          p.2.within.length ≤ levels ∧ ∀ m ∈ h :: path, p.2.within.length < m.within.length := by
        intro p hp
        have hp' := mem_of_located hp
        have hlt := Handle.length_within_lt hp'
        refine ⟨List.Subset.trans (Handle.within_subset (h.selections_subset hp')) hsub, by omega,
          fun m hm => ?_⟩
        rcases List.mem_cons.mp hm with rfl | hm
        · exact hlt
        · exact Nat.lt_trans hlt (hsmaller m hm)
      have hentered : Settled nodes (h :: path) (after course [h]).visited := by
        rw [after_new hmet]
        exact hsettled.enter hcoherent hh
      obtain ⟨heres, hheres⟩ := ih.mapM hcoherent
        (reach (.discover h location accumulate) .enter :: above) course.accumulate hbelow hentered
      rw [runWith_visit_first hfirst, consult_enter]
      rw [flatMap_located_within, after_append, after_new hmet] at hheres
      exact ⟨_, (Descent.runWith_bind_ok hheres _).trans
        (Descent.runWith_bind_ok (consult_other (by decide)) _)⟩

end Visits

end Spreads

/-! ### The walk over a fragment -/

open Spreads

/-- The limit of the walk: a node weighs one more than it has selections. -/
theorem weight_within (h : Handle) :
    1 + (h.within.map fun n => (selectionChildren n).flatten.length + 1).sum =
      2 * (1 + Selection.sizeList h.value.selections.items) := by
  have hchildren : ∀ n : Handle, (selectionChildren n).flatten =
      selectionHandles n.value.selections := fun n => by
    rw [← Children.map_located, map_located_selections]
  have hperm := h.perm_inner.length_eq
  have hlength := h.length_within
  rw [List.length_flatMap] at hperm
  rw [List.sum_map_add, List.map_const', List.sum_replicate]
  simp only [hchildren, hperm]
  rw [Handle.within, List.length_cons] at hlength ⊢
  simp only [smul_eq_mul]
  omega

/-- **The names that are noted**: those of the spreads that are met for the first time, from the top
and from left to right. -/
theorem spreadNames_eq (f : Ref Fragment) (hcoherent : Coherent f.ofFragment.within) :
    spreadNames f = .ok ((firstMet [] f.ofFragment.within).filterMap (·.value.spread?)) := by
  have hroot : ∀ root ∈ [f.ofFragment], root ∈ f.ofFragment.within := fun root hroot =>
    List.mem_singleton.mp hroot ▸ List.mem_cons_self
  have hclosed : ∀ n ∈ f.ofFragment.within, ∀ m ∈ (spreadPlan.children n).flatten,
      m ∈ f.ofFragment.within := by
    intro n hn m hm
    rw [← Children.map_located] at hm
    obtain ⟨p, hp, rfl⟩ := List.mem_map.mp hm
    exact Handle.within_subset hn (n.selections_subset (mem_of_located hp))
  obtain ⟨here, hvisit⟩ := visit_notes hcoherent f.ofFragment.within.length []
    { own := [], accumulate := (), edits := none } f.ofFragment [] none () (List.Subset.refl _)
    (Nat.le_refl _) nofun nofun
  have hdescend : (descend spreadPlan sightVisitor f.ofFragment.within.length
      [f.ofFragment]).runWith [] =
        (.ok (), (firstMet [] f.ofFragment.within).filterMap (·.value.spread?)) := by
    rw [runWith_descend, visitRoots, List.mapM_cons, Descent.runWith_bind_ok hvisit]
    rfl
  -- a larger limit makes no difference, and for a large one the walk is the recursion
  obtain ⟨L, hL⟩ := traverse_of_descend rfl sightVisitor _ [f.ofFragment] [] (by
    rw [hdescend]
    exact nofun)
  have hlimit := traverse_of_le hclosed (fun n _ => Nat.lt_succ_self _)
    (sightVisitor_requests Request.MakesNotes |>.comap Cursor.sight) hroot
    (Nat.le_of_eq (weight_within f.ofFragment)) (Nat.le_max_left _ L) []
  have hrun : (traverse spreadPlan spreadVisitor (2 * f.value.size) [f.ofFragment]).runWith [] =
      (.ok (), (firstMet [] f.ofFragment.within).filterMap (·.value.spread?)) := by
    rw [visitor_eq, ← hdescend, ← hL _ (Nat.le_max_right _ L)]
    exact hlimit.symm
  rw [spreadPlan] at hrun
  rw [spreadNames, hrun]

/-- Where no node is shared, the names are **all that the fragment spreads**, in their order. -/
theorem spreadNames_of_nodup {f : Ref Fragment}
    (hnodup : (f.ofFragment.within.map Ref.id).Nodup) : spreadNames f = .ok f.value.spreads := by
  rw [spreadNames_eq f (.of_nodup hnodup), firstMet_of_nodup hnodup fun _ _ => List.not_mem_nil,
    Fragment.filterMap_spread?]

/-- **All spreads are noted**, at any nesting, and no other names. -/
theorem mem_spreadNames (f : Ref Fragment) (hcoherent : Coherent f.ofFragment.within) :
    ∃ names, spreadNames f = .ok names ∧
      ∀ name, name ∈ names ↔ SpreadIn name f.value.selections.items := by
  refine ⟨_, spreadNames_eq f hcoherent, fun name => ?_⟩
  rw [spreadIn_iff, ← Fragment.spreads, ← Fragment.filterMap_spread?, List.mem_filterMap,
    List.mem_filterMap]
  simp only [hcoherent.mem_firstMet_iff]

end Arborist.Analysis
