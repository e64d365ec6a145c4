import Arborist.Graph
import Arborist.Proofs.Simulation

/-!
# Walks over finite graphs

On a graph with finitely many nodes the recursion goes down a bounded number of levels: every level
enters a node that was not entered before. So a walk over such a graph is the recursion over it
(`traverse_eq_descend`), for every visitor that goes on with nodes of the graph only.

Walk and recursion both take the children of a node from `Children.located`. What that is follows from
the roles and from what is found under each of them: it goes through the roles in their order and
through each list from left to right (`Children.located_eq_flatMap`), it has exactly the children that
are there (`Children.mem_located`), and each of them at a location of its own
(`Children.nodup_located`).
-/

namespace Arborist

variable {σ V Q N A κ : Type} {β : κ → Type}

/-! ### Visitors that stay in a graph -/

/-- A request **stays inside** a set of nodes if it goes on with none but these. -/
def Request.StaysIn (inside : N → Prop) : Request N A β → Prop
  | .change node => inside node
  | .replace node => inside node
  | _ => True

/-- All requests of a visitor satisfy `P`. -/
def Visitor.Requests (P : Q → Prop) (visitor : Visitor σ V Q) : Prop :=
  ∀ phase own, Program.Requests P (visitor.on phase own)

theorem Program.Requests.bind {α γ : Type} {P : Q → Prop} {p : Program V Q α}
    {f : α → Program V Q γ} (hp : p.Requests P) (hf : ∀ a, (f a).Requests P) :
    (p.bind f).Requests P := by
  induction p with
  | done a => exact hf a
  | look next ih => exact fun v => ih v (hp v)
  | ask q next ih => exact ⟨hp.1, fun r => ih r (hp.2 r)⟩

theorem Program.Requests.of_true {α : Type} (p : Program V Q α) : p.Requests fun _ => True := by
  induction p with
  | done a => trivial
  | look next ih => exact ih
  | ask q next ih => exact ⟨trivial, ih⟩

/-- Keeping a log makes no requests. -/
theorem Visitor.Requests.logging {P : Q → Prop} {visitor : Visitor σ V Q}
    (h : visitor.Requests P) : visitor.logging.Requests P := by
  rintro phase ⟨own, log⟩
  cases phase with
  | enter => exact fun _ => Program.Requests.bind (h .enter own) fun _ => trivial
  | leave => exact fun _ => Program.Requests.bind (h .leave own) fun _ => trivial
  | backRef => exact fun _ => Program.Requests.bind (h .backRef own) fun _ => trivial

theorem Desk.perform_staysIn [Identified N] [DecidableEq κ] {inside : N → Prop}
    (crumbs : List (Crumb N)) (q : Request N A β) (d : Desk N A β) (hq : q.StaysIn inside)
    (hd : inside d.here.node) : inside ((perform crumbs q).runWith d).2.here.node := by
  cases q with
  | setVar key value => exact hd
  | setAccumulate accumulate => exact hd
  | change node =>
    rw [perform, runWith_change]
    split
    · exact hd
    · exact hq
  | delete =>
    rw [perform, runWith_delete]
    repeat' split
    all_goals exact hd
  | replace node =>
    rw [perform, runWith_replace, runWith_amend]
    repeat' split
    all_goals first | exact hd | exact hq
  | remove =>
    rw [perform, runWith_remove]
    repeat' split
    all_goals exact hd
  | insertBefore node =>
    rw [perform, runWith_insertBeside]
    repeat' split
    all_goals exact hd
  | insertAfter node =>
    rw [perform, runWith_insertBeside]
    repeat' split
    all_goals exact hd

namespace Traversal

variable [Identified N] [DecidableEq κ]

/-- How many of the known identities have not been met. -/
def unmet (known visited : List (Identity N)) : Nat :=
  known.countP fun i => !visited.contains i

omit [DecidableEq κ] in
theorem unmet_le {known visited visited' : List (Identity N)} (h : visited ⊆ visited') :
    unmet known visited' ≤ unmet known visited := by
  refine List.countP_mono_left fun i _ hi => ?_
  simp only [Bool.not_eq_true', List.contains_eq_mem, decide_eq_false_iff_not] at hi ⊢
  exact fun hmem => hi (h hmem)

omit [DecidableEq κ] in
theorem unmet_cons_lt {known visited : List (Identity N)} {i : Identity N} (hknown : i ∈ known)
    (hi : visited.contains i = false) : unmet known (i :: visited) < unmet known visited := by
  induction known with
  | nil => simp at hknown
  | cons k known ih =>
    have hle : unmet known (i :: visited) ≤ unmet known visited :=
      unmet_le fun _ => List.mem_cons_of_mem _
    rw [unmet, unmet, List.countP_cons, List.countP_cons, ← unmet, ← unmet]
    by_cases hk : k = i
    · subst hk
      simp only [hi, List.contains_cons, BEq.rfl, Bool.true_or, Bool.not_true, Bool.not_false,
        Bool.false_eq_true, if_false, if_true]
      omega
    · have hlt := ih (by simpa [Ne.symm hk] using hknown)
      have hsame : (i :: visited).contains k = visited.contains k := by
        simp [hk]
      rw [hsame]
      omega

/-! ### Callbacks and visits -/

section Consult

variable {rootVars : Vars β} {visitor : SightVisitor σ N A β} {phase : Phase}
  {above : List (Facts N A β)} {below : Option (Children (Facts N A β))} {met here : Facts N A β}
  {course course' : Course σ N A} {control : Control}

/-- What all requests of a callback preserve is preserved by the callback. -/
theorem consult_invariant {P : Request N A β → Prop} {I : Desk N A β → Prop}
    (h : (consult rootVars visitor phase above below met).runWith course =
      (.ok (control, here), course'))
    (hvisitor : Program.Requests P (visitor.on phase course.own))
    (hperform : ∀ q d, P q → I d →
      I ((Desk.perform (Facts.crumbs met.location above) q).runWith d).2)
    (hstart : I { here := { met with current := course.accumulate, next := none, phase := some phase }
                  edits := course.edits }) :
    I { here, edits := course'.edits } := by
  simp only [consult, Descent.runWith, Callback.runOn] at h
  have hinvariant := Program.run_invariant (I := I)
    (fun d : Desk N A β =>
      ({ here := d.here, above, below, rootVars, visited := course.visited } : Sight N A β))
    hperform hvisitor hstart
  split at h
  · rename_i control' own d hrun
    rw [hrun] at hinvariant
    simp only [Prod.mk.injEq, Except.ok.injEq] at h
    obtain ⟨⟨-, rfl⟩, rfl⟩ := h
    exact hinvariant
  · simp at h

/-- A callback leaves the visited nodes alone, and the node stays where it was met. -/
theorem consult_keeps
    (h : (consult rootVars visitor phase above below met).runWith course =
      (.ok (control, here), course')) :
    course'.visited = course.visited ∧ here.first = met.first ∧ here.location = met.location := by
  have hkeeps := consult_invariant (I := fun d => Facts.Keeps _ d.here) h
    (Program.Requests.of_true _) (fun q d _ hd => hd.trans (Desk.perform_keeps _ d q))
    (Facts.Keeps.refl _)
  refine ⟨?_, hkeeps.first, hkeeps.location⟩
  simp only [consult, Descent.runWith, Callback.runOn] at h
  split at h
  · simp only [Prod.mk.injEq] at h
    rw [← h.2]
  · simp at h

/-- A callback of a visitor that stays inside goes on with a node inside. -/
theorem consult_inside {inside : N → Prop}
    (h : (consult rootVars visitor phase above below met).runWith course =
      (.ok (control, here), course'))
    (hvisitor : visitor.Requests (Request.StaysIn inside)) (hmet : inside met.node) :
    inside here.node :=
  consult_invariant (I := fun d => inside d.here.node) h (hvisitor phase course.own)
    (fun q d hq hd => Desk.perform_staysIn _ q d hq hd) hmet

end Consult

theorem consult_error {rootVars : Vars β} {visitor : SightVisitor σ N A β} {phase : Phase}
    {above : List (Facts N A β)} {below : Option (Children (Facts N A β))} {met : Facts N A β}
    {course course' : Course σ N A} {stop : Stop}
    (h : (consult rootVars visitor phase above below met).runWith course = (.error stop, course')) :
    ∃ e, stop = .failed e ∧ course'.visited = course.visited := by
  simp only [consult, Descent.runWith, Callback.runOn] at h
  split at h
  · simp at h
  · simp only [Prod.mk.injEq, Except.error.injEq] at h
    obtain ⟨rfl, rfl⟩ := h
    exact ⟨_, rfl, rfl⟩

/-! ### Levels -/

section Total

variable {plan : Plan N A β} {visitor : SightVisitor σ N A β} {inside : N → Prop}
  {known : List (Identity N)}

/-- A part of the recursion that started with some nodes visited is not cut off, and leaves no fewer
visited. -/
def Total {α : Type} (visited : List (Identity N)) (result : Except Stop α × Course σ N A) : Prop :=
  result.1 ≠ .error .exhausted ∧ visited ⊆ result.2.visited

theorem Total.mono {α : Type} {visited visited' : List (Identity N)}
    {result : Except Stop α × Course σ N A} (h : Total visited' result)
    (hsub : visited ⊆ visited') : Total visited result :=
  ⟨h.1, List.Subset.trans hsub h.2⟩

theorem Total.bind {α γ : Type} {visited : List (Identity N)} {x : Descent σ N A α}
    {f : α → Descent σ N A γ} {course : Course σ N A} (hx : Total visited (x.runWith course))
    (hf : ∀ a course', x.runWith course = (.ok a, course') → visited ⊆ course'.visited →
      Total visited ((f a).runWith course')) :
    Total visited ((x >>= f).runWith course) := by
  cases hrun : x.runWith course with
  | mk out course' =>
    rw [hrun] at hx
    cases out with
    | error stop =>
      rw [Descent.runWith_bind_error hrun]
      exact ⟨fun h => hx.1 (by simpa using h), hx.2⟩
    | ok a =>
      rw [Descent.runWith_bind_ok hrun]
      exact hf a course' hrun hx.2

/-- Calling back and doing what the callback says goes down no level. -/
theorem consult_heed_total {phase : Phase} {above : List (Facts N A β)}
    {below : Option (Children (Facts N A β))} {met : Facts N A β} {course : Course σ N A} :
    Total course.visited ((consult plan.rootVars visitor phase above below met >>=
      fun p => heed above p.2 p.1).runWith course) := by
  cases hrun : (consult plan.rootVars visitor phase above below met).runWith course with
  | mk out course' =>
    cases out with
    | error stop =>
      obtain ⟨e, rfl, hvisited⟩ := consult_error hrun
      rw [Descent.runWith_bind_error hrun]
      exact ⟨nofun, hvisited ▸ List.Subset.refl _⟩
    | ok p =>
      obtain ⟨control, here⟩ := p
      rw [Descent.runWith_bind_ok hrun]
      have hvisited := (consult_keeps hrun).1
      cases control <;> exact ⟨nofun, hvisited ▸ List.Subset.refl _⟩

/-- Visits of nodes inside are total if there are more levels than nodes that were not met. -/
def TotalVisits (plan : Plan N A β) (visitor : SightVisitor σ N A β) (inside : N → Prop)
    (known : List (Identity N)) (levels : Nat) : Prop :=
  ∀ (above : List (Facts N A β)) (met : Facts N A β) (course : Course σ N A), inside met.node →
    inside met.first → unmet known course.visited < levels →
    Total course.visited ((visit plan visitor levels above met).runWith course)

theorem TotalVisits.mapM {levels : Nat} (hvisit : TotalVisits plan visitor inside known levels)
    {above : List (Facts N A β)} {list : List (Facts N A β)} {course : Course σ N A}
    (hlist : ∀ met ∈ list, inside met.node ∧ inside met.first)
    (hlevels : unmet known course.visited < levels) :
    Total course.visited ((list.mapM (visit plan visitor levels above)).runWith course) := by
  induction list generalizing course with
  | nil => exact ⟨nofun, List.Subset.refl _⟩
  | cons met list ih =>
    rw [List.mapM_cons]
    obtain ⟨hnode, hfirst⟩ := hlist met List.mem_cons_self
    refine Total.bind (hvisit above met course hnode hfirst hlevels) fun here course' _ hsub => ?_
    have hrest : Total course'.visited
        ((list.mapM (visit plan visitor levels above)).runWith course') :=
      ih (fun met hmet => hlist met (List.mem_cons_of_mem _ hmet))
        (Nat.lt_of_le_of_lt (unmet_le hsub) hlevels)
    refine Total.bind (hrest.mono hsub) fun heres course'' _ hsub' => ?_
    exact ⟨nofun, hsub'⟩

variable (hclosed : ∀ n, inside n → ∀ m ∈ (plan.children n).flatten, inside m)
  (hknown : ∀ n, inside n → identity n ∈ known) (hvisitor : visitor.Requests (Request.StaysIn inside))

include hclosed hknown hvisitor

/-- **Every level meets a new node**, so the recursion is not cut off. -/
theorem totalVisits (levels : Nat) : TotalVisits plan visitor inside known levels := by
  induction levels with
  | zero =>
    intro above met course _ _ hlevels
    exact absurd hlevels (Nat.not_lt_zero _)
  | succ levels ih =>
    intro above met course hnode hfirst hlevels
    cases hagain : course.visited.contains (identity met.first) with
    | true =>
      rw [runWith_visit_again hagain]
      exact consult_heed_total
    | false =>
      rw [runWith_visit_first hagain]
      cases hrun : (consult plan.rootVars visitor .enter above none met).runWith course with
      | mk out course' =>
        cases out with
        | error stop =>
          obtain ⟨e, rfl, hvisited⟩ := consult_error hrun
          exact ⟨nofun, hvisited ▸ List.Subset.refl _⟩
        | ok p =>
          obtain ⟨control, here⟩ := p
          obtain ⟨hvisited, -, -⟩ := consult_keeps hrun
          have hsub : course.visited ⊆ identity met.first :: course'.visited :=
            hvisited ▸ List.subset_cons_self _ _
          cases control with
          | quit => exact ⟨nofun, hsub⟩
          | abort => exact ⟨nofun, hsub⟩
          | proceed =>
            have hhere := consult_inside hrun hvisitor hnode
            have hchildren : ∀ met ∈ (if here.deleted then .empty else plan.children here.node :
                Children N).located.map fun p =>
                  (Facts.discover p.2 (some p.1) course'.accumulate : Facts N A β),
                inside met.node ∧ inside met.first := by
              intro met hmet
              obtain ⟨p, hp, rfl⟩ := List.mem_map.mp hmet
              have hin : inside p.2 := by
                split at hp
                · simp [Children.located, Children.empty] at hp
                · exact hclosed _ hhere _ (mem_flatten_of_located hp)
              exact ⟨hin, hin⟩
            have hfewer : unmet known (identity met.first :: course'.visited) < levels := by
              rw [hvisited]
              exact Nat.lt_of_lt_of_le (unmet_cons_lt (hknown _ hfirst) hagain)
                (Nat.le_of_lt_succ hlevels)
            have hmapM : Total (identity met.first :: course'.visited)
                ((List.mapM (visit plan visitor levels (here :: above)) _).runWith
                  { course' with visited := identity met.first :: course'.visited }) :=
              ih.mapM hchildren hfewer
            rw [List.mapM_map] at hmapM
            refine Total.bind (hmapM.mono hsub) fun below course'' _ hsub' => ?_
            exact consult_heed_total.mono hsub'

/-- More levels than there are nodes are enough. -/
theorem descend_total_of_lt {levels : Nat} (hlevels : known.length < levels) {roots : List N}
    (hroots : ∀ root ∈ roots, inside root) (own : σ) :
    ((descend plan visitor levels roots).runWith own).1 ≠ .error .exhausted := by
  have htotal := totalVisits hclosed hknown hvisitor levels
  have hfacts : ∀ met ∈ roots.map fun root =>
      (Facts.discover root none plan.initial : Facts N A β), inside met.node ∧ inside met.first := by
    intro met hmet
    obtain ⟨root, hroot, rfl⟩ := List.mem_map.mp hmet
    exact ⟨hroots root hroot, hroots root hroot⟩
  have hmapM : Total [] ((List.mapM (visit plan visitor levels []) _).runWith
      { own, accumulate := plan.initial, edits := none }) :=
    htotal.mapM hfacts (Nat.lt_of_le_of_lt List.countP_le_length hlevels)
  rw [List.mapM_map] at hmapM
  rw [runWith_descend]
  cases hrun : (visitRoots plan visitor levels roots).runWith
      { own, accumulate := plan.initial, edits := none } with
  | mk out course =>
    have hout : out ≠ .error .exhausted := fun h => hmapM.1 (by
      change (Descent.runWith (visitRoots plan visitor levels roots) _).1 = _
      rw [hrun, h])
    match out, hout with
    | .ok a, _ => exact nofun
    | .error .quit, _ => exact nofun
    | .error (.failed e), _ => exact nofun
    | .error .exhausted, hout => exact absurd rfl hout

/-- As many levels as there are nodes, and one more, are enough. -/
theorem descend_total {roots : List N} (hroots : ∀ root ∈ roots, inside root) (own : σ) :
    ((descend plan visitor (known.length + 1) roots).runWith own).1 ≠ .error .exhausted :=
  descend_total_of_lt hclosed hknown hvisitor (Nat.lt_succ_self _) hroots own

/-- **A depth-first walk over a finite graph is the recursion**: for every visitor that goes on with
nodes of the graph only, it ends with the same accumulate or the same error and leaves the same state
of the visitor. With a log the same holds, so the callbacks are the same, made in the same order and
on the same contexts. The order among the children of a node is that of `Children.located`, as
`Children.located_eq_flatMap` gives it by role and index. -/
theorem traverse_eq_descend (hmode : plan.mode = .depthFirst) {roots : List N}
    (hroots : ∀ root ∈ roots, inside root) (own : σ) :
    ((descend plan visitor (known.length + 1) roots).runWith own).1 ≠ .error .exhausted ∧
      ∃ L, ∀ limit, L ≤ limit →
        (traverse plan (visitor.comap Cursor.sight) limit roots).runWith own =
          (descend plan visitor (known.length + 1) roots).runWith own ∧
        (traverse plan (visitor.logging.comap Cursor.sight) limit roots).runWith (own, []) =
          (descend plan visitor.logging (known.length + 1) roots).runWith (own, []) := by
  have hends := descend_total hclosed hknown hvisitor hroots own
  have hlogged := descend_total hclosed hknown hvisitor.logging hroots (own, [])
  obtain ⟨L, hL⟩ := traverse_of_descend hmode visitor (known.length + 1) roots own hends
  obtain ⟨M, hM⟩ := traverse_of_descend hmode visitor.logging (known.length + 1) roots (own, [])
    hlogged
  refine ⟨hends, max L M, fun limit hle => ⟨hL limit ?_, hM limit ?_⟩⟩
  · exact Nat.le_trans (Nat.le_max_left _ _) hle
  · exact Nat.le_trans (Nat.le_max_right _ _) hle

end Total

/-! ### A graph with a cycle -/

open Arborist.Graph

/-- A node that has another one twice and itself below it. -/
def ringTable : Table where
  entries := [("a", ⟨[(.named "x", ["b", "b"]), (.unnamed, ["a"])]⟩), ("b", ⟨[(.unnamed, ["a"])]⟩)]

/-- A visitor that counts what it enters, goes on with another node in place of `b`, and deletes what
it meets again. -/
def ringVisitor : SightVisitor Unit Node Nat (fun _ : Unit => Nat) where
  enter := fun own => .look fun sight => .ask (.setAccumulate (sight.here.current + 1)) fun _ =>
    if sight.here.node.label = "b" then .ask (.change (.listed "c")) fun _ => .done (.ok .proceed, own)
    else .done (.ok .proceed, own)
  backRef := fun own => .ask .delete fun _ => .done (.ok .proceed, own)

/-- The walk over the ring. -/
def ringPlan : Plan Node Nat (fun _ : Unit => Nat) where
  children := ringTable.children
  initial := 0

theorem ringPlan_closed (n : Node) (hn : n ∈ [Node.listed "a", .listed "b", .listed "c"]) :
    ∀ m ∈ (ringPlan.children n).flatten, m ∈ [Node.listed "a", .listed "b", .listed "c"] := by
  simp only [List.mem_cons, List.not_mem_nil, or_false] at hn
  rcases hn with rfl | rfl | rfl
  · change ∀ m ∈ [Node.listed "b", .listed "b", .listed "a"], _
    simp
  · change ∀ m ∈ [Node.listed "a"], _
    simp
  · change ∀ m ∈ ([] : List Node), _
    simp

theorem ringVisitor_staysIn :
    ringVisitor.Requests
      (Request.StaysIn (· ∈ [Node.listed "a", .listed "b", .listed "c"])) := by
  intro phase own
  cases phase with
  | enter =>
    refine fun sight => ⟨trivial, fun _ => ?_⟩
    split
    · exact ⟨by simp [Request.StaysIn], fun _ => trivial⟩
    · exact trivial
  | leave => exact trivial
  | backRef => exact ⟨trivial, fun _ => trivial⟩

/-- The identities of the ring. -/
def ringKnown : List (Identity Node) :=
  [identity (Node.listed "a"), identity (Node.listed "b"), identity (Node.listed "c")]

theorem ringKnown_covers (n : Node) (hn : n ∈ [Node.listed "a", .listed "b", .listed "c"]) :
    identity n ∈ ringKnown := by
  simp only [List.mem_cons, List.not_mem_nil, or_false] at hn
  rcases hn with rfl | rfl | rfl <;> simp [ringKnown]

theorem traverse_eq_descend_ring :
    ((descend ringPlan ringVisitor (ringKnown.length + 1) [.listed "a"]).runWith ()).1 ≠
        .error .exhausted ∧
      ∃ L, ∀ limit, L ≤ limit →
        (traverse ringPlan (ringVisitor.comap Cursor.sight) limit [.listed "a"]).runWith () =
          (descend ringPlan ringVisitor (ringKnown.length + 1) [.listed "a"]).runWith () ∧
        (traverse ringPlan (ringVisitor.logging.comap Cursor.sight) limit
          [.listed "a"]).runWith ((), []) =
          (descend ringPlan ringVisitor.logging (ringKnown.length + 1)
            [.listed "a"]).runWith ((), []) :=
  traverse_eq_descend ringPlan_closed ringKnown_covers ringVisitor_staysIn rfl (by simp) ()

end Traversal

end Arborist
