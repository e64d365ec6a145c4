import Arborist.Proofs.Expansion
import Mathlib

/-!
# Walks follow their recursion

The machine with its list of pending entries **simulates** the recursion of `visit`. Each callback
is one step, and what the recursion has still to do after it is what is pending.

* `call_consult`: a callback comes to the same on both sides.
* `Follows` says that the machine comes to where a part of the recursion ends, and `Follows.bind`
  puts parts together.
* `followsVisit`: the machine follows every visit, by induction on the levels.
* `traverse_of_descend`: a walk gives what the recursion gives, if the latter is not cut off.
-/

namespace Arborist

variable {σ N A κ : Type} {β : κ → Type}

theorem Children.filterMap_congr {M L : Type} {ids : Children M} {f g : M → Option L}
    (h : ∀ i ∈ ids.flatten, f i = g i) : ids.filterMap f = ids.filterMap g := by
  simp only [Children.filterMap, Children.mk.injEq]
  refine List.map_congr_left fun p hp => ?_
  rw [List.filterMap_congr fun i hi => h i (List.mem_flatMap.mpr ⟨p, hp, hi⟩)]

namespace Traversal

variable [Identified N] [DecidableEq κ]

/-! ### Callbacks -/

/-- The state of a walk **matches** what a recursion has come to. -/
structure State.Matches (s : State N A β) (course : Course σ N A) : Prop where
  visited : s.visited = course.visited
  accumulate : s.accumulate = course.accumulate
  edits : s.ledger.edits = course.edits

/-- The children of a context that can be seen in a phase. -/
def Seen (arena : Arena N A β) (id : Nat) (c : Context N A β)
    (below : Option (Children (Facts N A β))) :
    Phase → Prop
  | .leave => ∃ ids : Children Nat, c.children = some ids ∧ id ∉ ids.flatten ∧
      below = some ((ids.filterMap fun i => arena[i]?).map Context.facts)
  | _ => below = none

variable {s : State N A β} {course : Course σ N A} {id : Nat} {c : Context N A β}
  {above : List (Facts N A β)} {below : Option (Children (Facts N A β))} {phase : Phase}

omit [DecidableEq κ] in
/-- What a cursor shows in agreement with a desk. -/
theorem sight_eq {arena : Arena N A β} (hchain : arena.Chain id c.link above)
    (hid : id < arena.size) (hseen : Seen arena id c below phase) {l : Ledger N A β}
    {d : Desk N A β} (h : l.Agrees arena id c d) (hphase : d.here.phase = some phase)
    (start : Context N A β) (rootVars : Vars β) (visited : List (Identity N)) :
    (Spot.cursor ⟨id, start⟩ rootVars visited l).sight =
      { here := d.here, above, below, rootVars, visited } := by
  obtain ⟨⟨c', harena, hfacts, hlink, hchildren⟩, -⟩ := h
  have hcontext : Spot.context ⟨id, start⟩ l = c' := by
    rw [Spot.context, harena, Array.getD_modify_const arena hid]
  have hc' : l.arena.Chain id c'.link above := by
    rw [hlink, harena]
    exact hchain.modify _
  have hsize : id ≤ l.arena.size := by
    rw [harena, Array.size_modify]
    exact Nat.le_of_lt hid
  have hc'phase : c'.phase = some phase := (congrArg Facts.phase hfacts).trans hphase
  have hbelow : (Cursor.children? (Spot.cursor ⟨id, start⟩ rootVars visited l)).map
      (fun children => children.map Context.facts) = below := by
    simp only [Cursor.children?, Spot.cursor, hcontext, hc'phase, hchildren]
    cases phase with
    | enter | backRef => simpa using hseen.symm
    | leave =>
      obtain ⟨ids, hids, hnot, rfl⟩ := hseen
      have hother : ∀ i ∈ ids.flatten, l.arena[i]? = arena[i]? := fun i hi => by
        rw [harena, Array.getElem?_modify, if_neg]
        rintro rfl
        exact hnot hi
      rw [if_pos rfl, hids, Option.map_some, Option.map_some, Children.filterMap_congr hother]
  have habove := hc'.ancestors hsize
  simp only [Cursor.sight, hbelow]
  simp only [Spot.cursor, hcontext, hfacts]
  congr

/-- A callback on a context runs from a ledger in which the context is prepared for it. -/
theorem State.runWith_call (hc : s.ledger.arena[id]? = some c) (rootVars : Vars β)
    (callback : Callback σ (Cursor N A β) (Request N A β) Control) (own : σ) :
    let start : Context N A β :=
      { c with current := s.accumulate, next := none, phase := some phase }
    let run := Program.run (Spot.cursor ⟨id, start⟩ rootVars s.visited) (Spot.perform ⟨id, start⟩)
      (callback own) (s.ledger.modifyAt id fun _ => start)
    (s.call rootVars id phase callback).runWith own =
      (run.1.1.map fun control => (control, { s with
          ledger := run.2
          accumulate := (Spot.context ⟨id, start⟩ run.2).handedOn }), run.1.2) := by
  intro start run
  rw [State.call, hc]
  simp only [Attempt.runWith, Callback.runOn]
  split
  · next hrun =>
    rw [show run = _ from hrun]
    rfl
  · next hrun =>
    rw [show run = _ from hrun]
    rfl

/-- After a callback that succeeds, the walk has the ledger that the callback left. -/
theorem State.eq_of_call_ok {s' : State N A β} {rootVars : Vars β} {control : Control}
    {callback : Callback σ (Cursor N A β) (Request N A β) Control} {own own' : σ}
    (hc : s.ledger.arena[id]? = some c)
    (h : (s.call rootVars id phase callback).runWith own = (.ok (control, s'), own')) :
    let start : Context N A β :=
      { c with current := s.accumulate, next := none, phase := some phase }
    let run := Program.run (Spot.cursor ⟨id, start⟩ rootVars s.visited) (Spot.perform ⟨id, start⟩)
      (callback own) (s.ledger.modifyAt id fun _ => start)
    s' = { s with ledger := run.2, accumulate := (Spot.context ⟨id, start⟩ run.2).handedOn } := by
  intro start run
  rw [State.runWith_call hc] at h
  change (Except.map _ run.1.1, run.1.2) = _ at h
  cases hout : run.1.1 with
  | error e =>
    rw [hout] at h
    cases h
  | ok _ =>
    rw [hout] at h
    cases h
    rfl

/-- **Calling back** from a walk and from a recursion comes to the same. -/
theorem call_consult (hmatch : s.Matches course) (hc : s.ledger.arena[id]? = some c)
    (hchain : s.ledger.arena.Chain id c.link above) (hseen : Seen s.ledger.arena id c below phase)
    (rootVars : Vars β) (visitor : SightVisitor σ N A β) :
    match (consult rootVars visitor phase above below c.facts).runWith course with
    | (.ok (control, here), course') => ∃ s' c',
        (s.call rootVars id phase ((visitor.comap Cursor.sight).on phase)).runWith course.own =
          (.ok (control, s'), course'.own) ∧
        s'.ledger.arena = s.ledger.arena.modify id (fun _ => c') ∧ c'.facts = here ∧
        c'.link = c.link ∧ c'.children = c.children ∧ s'.pending = s.pending ∧
        s'.Matches course'
    | (.error stop, course') => ∃ e, stop = .failed e ∧
        (s.call rootVars id phase ((visitor.comap Cursor.sight).on phase)).runWith course.own =
          (.error e, course'.own) := by
  obtain ⟨hid, -⟩ := Array.getElem?_eq_some_iff.mp hc
  let start : Context N A β :=
    { c with current := s.accumulate, next := none, phase := some phase }
  have hagrees : Ledger.Agrees s.ledger.arena id c (s.ledger.modifyAt id fun _ => start)
      { here := { c.facts with current := course.accumulate, next := none, phase := some phase }
        edits := course.edits } := by
    refine ⟨⟨start, rfl, ?_, rfl, rfl⟩, hmatch.edits⟩
    rw [← hmatch.accumulate]
    rfl
  -- the phase has to be carried along, since the children show in one phase only
  obtain ⟨hout, hend, -⟩ := Program.run_related
    (R := fun l d => l.Agrees s.ledger.arena id c d ∧ d.here.phase = some phase)
    (fun l d h => sight_eq hchain hid hseen h.1 h.2 start rootVars s.visited)
    (fun q l d h =>
      have halike := Spot.perform_agrees start hchain hid h.1 q
      ⟨halike.1, halike.2, (Desk.perform_keeps _ d q).phase.trans h.2⟩)
    (visitor.on phase course.own) ⟨hagrees, rfl⟩
  rw [hmatch.visited] at hout hend
  have hcomap : (visitor.comap Cursor.sight).on phase course.own =
      (visitor.on phase course.own).comap Cursor.sight := by
    cases phase <;> rfl
  rw [State.runWith_call hc, hcomap, Program.run_comap, hmatch.visited]
  simp only [consult, Descent.runWith, Callback.runOn]
  generalize Program.run (fun l => (Spot.cursor ⟨id, start⟩ rootVars course.visited l).sight)
    (Spot.perform ⟨id, start⟩) (visitor.on phase course.own)
    (s.ledger.modifyAt id fun _ => start) = run at hout hend ⊢
  change run.1 = (Program.run _ (Desk.perform (Facts.crumbs c.facts.location above)) _ _).1 at hout
  change run.2.Agrees _ _ _
    (Program.run _ (Desk.perform (Facts.crumbs c.facts.location above)) _ _).2 at hend
  generalize Program.run (fun d : Desk N A β =>
      ({ here := d.here, above, below, rootVars, visited := course.visited } : Sight N A β))
    (Desk.perform (Facts.crumbs c.facts.location above)) (visitor.on phase course.own)
    { here := { c.facts with current := course.accumulate, next := none, phase := some phase }
      edits := course.edits } = run' at hout hend ⊢
  obtain ⟨out, l⟩ := run
  obtain ⟨⟨result, own⟩, d⟩ := run'
  obtain rfl : out = (result, own) := hout
  cases result with
  | error e => exact ⟨e, rfl, rfl⟩
  | ok control =>
    have hfacts := Spot.context_facts start hid hend
    obtain ⟨⟨c', harena, hc', hlink, hchildren⟩, hedits⟩ := hend
    refine ⟨_, c', rfl, harena, hc', hlink, hchildren, rfl, ⟨rfl, ?_, hedits⟩⟩
    change _ = d.here.handedOn
    rw [← hfacts]
    rfl

/-! ### Steps -/

/-- How a walk goes on from a node that it entered. -/
def State.entered (s : State N A β) (plan : Plan N A β) (id : Nat) : Control → State N A β
  | .proceed => s.expand plan id
  | .quit => s.halt
  | .abort => s

omit [DecidableEq κ] in
/-- What a callback says outside of entering keeps the state or ends the walk. -/
theorem obey_cases {s' : State N A β} {own own' : σ} {control : Control}
    (h : (s.obey id control).runWith own = (.ok s', own')) :
    own = own' ∧ (s' = s ∨ s' = s.halt) := by
  cases control with
  | proceed =>
    cases h
    exact ⟨rfl, .inl rfl⟩
  | quit =>
    cases h
    exact ⟨rfl, .inr rfl⟩
  | abort =>
    rw [State.obey] at h
    split at h
    · cases h
      exact ⟨rfl, .inl rfl⟩
    · cases h

section Step

variable {plan : Plan N A β} {visitor : SequentialVisitor σ N A β}

/-- There is nothing to visit at a place where no context stands. -/
theorem step_unknown (hc : s.ledger.arena[id]? = none) :
    step plan visitor (.visit id) s = pure s := by
  rw [step, hc]

/-- A node that was entered before is a back reference. -/
theorem step_again (hc : s.ledger.arena[id]? = some c)
    (h : s.visited.contains (identity c.first) = true) :
    step plan visitor (.visit id) s =
      s.call plan.rootVars id .backRef visitor.backRef >>= fun p => p.2.obey id p.1 := by
  rw [step, hc]
  exact if_pos h

/-- Any other node is entered. -/
theorem step_first (hc : s.ledger.arena[id]? = some c)
    (h : s.visited.contains (identity c.first) = false) :
    step plan visitor (.visit id) s =
      s.call plan.rootVars id .enter visitor.enter >>= fun p =>
        pure (State.entered { p.2 with visited := identity c.first :: p.2.visited } plan id
          p.1) := by
  rw [step, hc]
  refine (if_neg (Bool.eq_false_iff.mp h)).trans (congrArg _ (funext fun p => ?_))
  obtain ⟨control, s⟩ := p
  cases control <;> rfl

end Step

section Steps

variable (plan : Plan N A β) (visitor : SequentialVisitor σ N A β)

theorem steps_of_nil {limit : Nat} {s : State N A β} (h : s.pending = []) :
    steps plan visitor limit s = pure s := by
  rw [steps.eq_def]
  simp only [h]

theorem steps_of_cons {limit : Nat} {s : State N A β} {entry : Entry} {pending : List Entry}
    (h : s.pending = entry :: pending) :
    steps plan visitor (limit + 1) s =
      Walk.ofAttempt (step plan visitor entry { s with pending }) >>= steps plan visitor limit := by
  rw [steps.eq_def]
  simp only [h]

/-- After some steps the walk goes on from `s'`. -/
def Runs (s : State N A β) (own : σ) (s' : State N A β) (own' : σ) : Prop :=
  ∃ k, ∀ limit, (steps plan visitor (k + limit) s).runWith own =
    (steps plan visitor limit s').runWith own'

/-- After some steps the walk fails. -/
def Fails (s : State N A β) (own : σ) (e : Error) (own' : σ) : Prop :=
  ∃ k, ∀ limit, (steps plan visitor (k + limit) s).runWith own = (.error (.failed e), own')

variable {plan visitor} {s s' s'' : State N A β} {own own' own'' : σ} {e : Error}

theorem Runs.refl : Runs plan visitor s own s own :=
  ⟨0, fun limit => by rw [Nat.zero_add]⟩

theorem Runs.trans (h : Runs plan visitor s own s' own')
    (h' : Runs plan visitor s' own' s'' own'') :
    Runs plan visitor s own s'' own'' := by
  obtain ⟨k, hk⟩ := h
  obtain ⟨k', hk'⟩ := h'
  refine ⟨k + k', fun limit => ?_⟩
  rw [Nat.add_assoc, hk, hk']

theorem Runs.fails (h : Runs plan visitor s own s' own') (h' : Fails plan visitor s' own' e own'') :
    Fails plan visitor s own e own'' := by
  obtain ⟨k, hk⟩ := h
  obtain ⟨k', hk'⟩ := h'
  refine ⟨k + k', fun limit => ?_⟩
  rw [Nat.add_assoc, hk, hk']

theorem Runs.step {entry : Entry} {pending : List Entry} (hp : s.pending = entry :: pending)
    (h : (step plan visitor entry { s with pending }).runWith own = (.ok s', own')) :
    Runs plan visitor s own s' own' := by
  refine ⟨1, fun limit => ?_⟩
  rw [Nat.add_comm, steps_of_cons plan visitor hp,
    Walk.runWith_bind_ok (Walk.runWith_ofAttempt_ok h)]

theorem Fails.step {entry : Entry} {pending : List Entry} (hp : s.pending = entry :: pending)
    (h : (Traversal.step plan visitor entry { s with pending }).runWith own = (.error e, own')) :
    Fails plan visitor s own e own' := by
  refine ⟨1, fun limit => ?_⟩
  rw [Nat.add_comm, steps_of_cons plan visitor hp,
    Walk.runWith_bind_error (Walk.runWith_ofAttempt_error h)]

end Steps

/-! ### Visits -/

section Descent

variable {α γ : Type}

theorem Descent.runWith_bind_ok {x : Descent σ N A α} {course course' : Course σ N A} {a : α}
    (h : x.runWith course = (.ok a, course')) (f : α → Descent σ N A γ) :
    (x >>= f).runWith course = (f a).runWith course' := by
  have hx : x course = (.ok a, course') := h
  show ExceptT.bindCont f (x course).1 (x course).2 = f a course'
  rw [hx]
  rfl

theorem Descent.runWith_bind_error {x : Descent σ N A α} {course course' : Course σ N A}
    {stop : Stop} (h : x.runWith course = (.error stop, course')) (f : α → Descent σ N A γ) :
    (x >>= f).runWith course = (.error stop, course') := by
  have hx : x course = (.error stop, course') := h
  show ExceptT.bindCont f (x course).1 (x course).2 = (.error stop, course')
  rw [hx]
  rfl

end Descent

/-- The walk from a state **follows** a part of the recursion: it comes to where that part ends and
has `rest` pending then, it stops if the recursion quits, and it fails if the recursion fails. -/
def Follows {α : Type} (plan : Plan N A β) (visitor : SightVisitor σ N A β) (s : State N A β)
    (own : σ) (rest : List Entry) (P : α → State N A β → Prop) :
    Except Stop α × Course σ N A → Prop
  | (.ok a, course) => ∃ s', Runs plan (visitor.comap Cursor.sight) s own s' course.own ∧
      s'.pending = rest ∧ s'.Matches course ∧ P a s'
  | (.error .quit, course) => ∃ s', Runs plan (visitor.comap Cursor.sight) s own s' course.own ∧
      s'.pending = [] ∧ s'.Matches course
  | (.error (.failed e), course) => Fails plan (visitor.comap Cursor.sight) s own e course.own
  | (.error .exhausted, _) => True

variable {plan : Plan N A β} {visitor : SightVisitor σ N A β}

theorem Follows.of_runs {α : Type} {s s' : State N A β} {own own' : σ} {rest : List Entry}
    {P : α → State N A β → Prop} {out : Except Stop α × Course σ N A}
    (hruns : Runs plan (visitor.comap Cursor.sight) s own s' own')
    (h : Follows plan visitor s' own' rest P out) : Follows plan visitor s own rest P out := by
  match out, h with
  | (.ok a, course), ⟨s'', hruns', hrest⟩ => exact ⟨s'', hruns.trans hruns', hrest⟩
  | (.error .quit, course), ⟨s'', hruns', hrest⟩ => exact ⟨s'', hruns.trans hruns', hrest⟩
  | (.error (.failed e), course), h => exact hruns.fails h
  | (.error .exhausted, _), _ => trivial

theorem Follows.imp {α : Type} {s : State N A β} {own : σ} {rest : List Entry}
    {P Q : α → State N A β → Prop} {out : Except Stop α × Course σ N A}
    (h : Follows plan visitor s own rest P out) (himp : ∀ a s', P a s' → Q a s') :
    Follows plan visitor s own rest Q out := by
  match out, h with
  | (.ok a, course), ⟨s', hruns, hpending, hmatch, hp⟩ =>
    exact ⟨s', hruns, hpending, hmatch, himp a s' hp⟩
  | (.error .quit, course), h => exact h
  | (.error (.failed e), course), h => exact h
  | (.error .exhausted, _), _ => trivial

/-- What follows a part of the recursion is followed from where the walk is then. -/
theorem Follows.bind {α γ : Type} {s : State N A β} {course : Course σ N A} {mid rest : List Entry}
    {P : α → State N A β → Prop} {Q : γ → State N A β → Prop} {x : Descent σ N A α}
    {f : α → Descent σ N A γ} (h : Follows plan visitor s course.own mid P (x.runWith course))
    (hnext : ∀ a s' course', s'.pending = mid → s'.Matches course' → P a s' →
      Follows plan visitor s' course'.own rest Q ((f a).runWith course')) :
    Follows plan visitor s course.own rest Q ((x >>= f).runWith course) := by
  cases hx : x.runWith course with
  | mk out course' =>
    rw [hx] at h
    match out, h with
    | .ok a, ⟨s', hruns, hpending, hmatch, hp⟩ =>
      rw [Descent.runWith_bind_ok hx]
      exact (hnext a s' course' hpending hmatch hp).of_runs hruns
    | .error .quit, h =>
      rw [Descent.runWith_bind_error hx]
      exact h
    | .error (.failed e), h =>
      rw [Descent.runWith_bind_error hx]
      exact h
    | .error .exhausted, _ =>
      rw [Descent.runWith_bind_error hx]
      trivial

/-- A callback has changed the context at `id` and nothing else of the arena. -/
def Touches (arena : Arena N A β) (id : Nat) (c : Context N A β) (here : Facts N A β)
    (s : State N A β) : Prop :=
  ∃ c', s.ledger.arena = arena.modify id (fun _ => c') ∧ c'.facts = here ∧ c'.link = c.link ∧
    c'.children = c.children

/-- A step that calls back and does what the callback says. -/
theorem obey_follows {entry : Entry} {rest : List Entry} (hp : s.pending = entry :: rest)
    (hmatch : s.Matches course) (hc : s.ledger.arena[id]? = some c)
    (hchain : s.ledger.arena.Chain id c.link above) (hseen : Seen s.ledger.arena id c below phase)
    (hstep : step plan (visitor.comap Cursor.sight) entry { s with pending := rest } =
      State.call { s with pending := rest } plan.rootVars id phase
        ((visitor.comap Cursor.sight).on phase) >>= fun p => p.2.obey id p.1) :
    Follows plan visitor s course.own rest (Touches s.ledger.arena id c)
      ((consult plan.rootVars visitor phase above below c.facts >>=
        fun p => heed above p.2 p.1).runWith course) := by
  obtain ⟨hid, -⟩ := Array.getElem?_eq_some_iff.mp hc
  have hcall := call_consult (s := { s with pending := rest }) ⟨hmatch.visited, hmatch.accumulate,
    hmatch.edits⟩ hc hchain hseen plan.rootVars visitor
  cases hconsult : (consult plan.rootVars visitor phase above below c.facts).runWith course with
  | mk out course' =>
    rw [hconsult] at hcall
    cases out with
    | error stop =>
      obtain ⟨e, rfl, hcall⟩ := hcall
      rw [Descent.runWith_bind_error hconsult]
      refine Fails.step hp ?_
      rw [hstep, Attempt.runWith_bind_error hcall]
    | ok p =>
      obtain ⟨control, here⟩ := p
      obtain ⟨s', c', hcall, harena, hfacts, hlink, hchildren, hpending, hmatch'⟩ := hcall
      have hstep' :
          (step plan (visitor.comap Cursor.sight) entry { s with pending := rest }).runWith
            course.own = (s'.obey id control).runWith course'.own := by
        rw [hstep, Attempt.runWith_bind_ok hcall]
      have hat : s'.ledger.arena[id]? = some c' := by
        rw [harena, Array.getElem?_modify_of_some hc]
      rw [Descent.runWith_bind_ok hconsult]
      cases control with
      | proceed =>
        exact ⟨s', Runs.step hp hstep', hpending, hmatch', c', harena, hfacts, hlink, hchildren⟩
      | quit =>
        exact ⟨s'.halt, Runs.step hp hstep', rfl, hmatch'.visited, hmatch'.accumulate,
          hmatch'.edits⟩
      | abort =>
        have hplace : s'.ledger.arena.place c' =
          Crumb.place (Facts.crumbs here.location above) := by
          have hchain' : s'.ledger.arena.Chain id c'.link above := by
            rw [hlink, harena]
            exact hchain.modify _
          have hsize : id ≤ s'.ledger.arena.size := by
            rw [harena, Array.size_modify]
            exact Nat.le_of_lt hid
          rw [hchain'.place hsize, hfacts]
        refine Fails.step hp (hstep'.trans ?_)
        rw [State.obey, hat, ← hplace]
        rfl

/-- The arena after a visit of `id`: other contexts are as they were, and the node has the facts
that the visit ended with. -/
structure Visited (arena : Arena N A β) (id : Nat) (here : Facts N A β)
    (s : State N A β) : Prop where
  size_le : arena.size ≤ s.ledger.arena.size
  same : ∀ j, j < arena.size → j ≠ id → s.ledger.arena[j]? = arena[j]?
  facts : (s.ledger.arena[id]?).map Context.facts = some here

/-- The arena after visits of the contexts from `n` on. -/
structure VisitedFrom (arena : Arena N A β) (n count : Nat) (heres : List (Facts N A β))
    (s : State N A β) : Prop where
  size_le : arena.size ≤ s.ledger.arena.size
  same : ∀ j, j < n → s.ledger.arena[j]? = arena[j]?
  length_eq : heres.length = count
  facts : ∀ i, i < heres.length → (s.ledger.arena[n + i]?).map Context.facts = heres[i]?

/-- The walk follows the visit of a node, whatever is above it. -/
def FollowsVisit (plan : Plan N A β) (visitor : SightVisitor σ N A β) (levels : Nat) : Prop :=
  ∀ (above : List (Facts N A β)) (s : State N A β) (course : Course σ N A) (id : Nat)
    (c : Context N A β) (rest : List Entry), s.pending = .visit id :: rest → s.Matches course →
    s.ledger.arena[id]? = some c → s.ledger.arena.Chain id c.link above →
    Follows plan visitor s course.own rest (Visited s.ledger.arena id)
      ((visit plan visitor levels above c.facts).runWith course)

/-- Visits of contexts that stand one behind the other. -/
theorem FollowsVisit.mapM {levels : Nat} (hvisit : FollowsVisit plan visitor levels)
    {above : List (Facts N A β)} {s : State N A β} {course : Course σ N A} {n : Nat}
    {cs : List (Context N A β)} {rest : List Entry}
    (hp : s.pending = (List.range' n cs.length).map Entry.visit ++ rest)
    (hmatch : s.Matches course) (hcs : ∀ i, i < cs.length → s.ledger.arena[n + i]? = cs[i]?)
    (hchain : ∀ c ∈ cs, s.ledger.arena.Chain n c.link above) :
    Follows plan visitor s course.own rest (VisitedFrom s.ledger.arena n cs.length)
      (((cs.map Context.facts).mapM (visit plan visitor levels above)).runWith course) := by
  induction cs generalizing s course n with
  | nil =>
    refine ⟨s, .refl, by simpa using hp, hmatch, Nat.le_refl _, fun _ _ => rfl, rfl, ?_⟩
    intro i hi
    simp at hi
  | cons c cs ih =>
    rw [List.map_cons, List.mapM_cons]
    have hc : s.ledger.arena[n]? = some c := by simpa using hcs 0 (Nat.succ_pos _)
    have hn : n < s.ledger.arena.size := (Array.getElem?_eq_some_iff.mp hc).1
    rw [List.length_cons, List.range'_succ, List.map_cons, List.cons_append] at hp
    refine Follows.bind (hvisit above s course n c _ hp hmatch hc (hchain c List.mem_cons_self)) ?_
    intro here s' course' hp' hmatch' hvisited
    have hsame : ∀ j, j < n → s'.ledger.arena[j]? = s.ledger.arena[j]? := fun j hj =>
      hvisited.same j (Nat.lt_trans hj hn) (Nat.ne_of_lt hj)
    have hcs' : ∀ i, i < cs.length → s'.ledger.arena[n + 1 + i]? = cs[i]? := by
      intro i hi
      have hold := hcs (i + 1) (Nat.succ_lt_succ hi)
      rw [List.getElem?_cons_succ, List.getElem?_eq_getElem hi] at hold
      rw [List.getElem?_eq_getElem hi, ← hold, show n + 1 + i = n + (i + 1) by omega]
      exact hvisited.same _ (Array.getElem?_eq_some_iff.mp hold).1 (by omega)
    have hchain' : ∀ d ∈ cs, s'.ledger.arena.Chain (n + 1) d.link above := fun d hd =>
      ((hchain d (List.mem_cons_of_mem _ hd)).congr hsame).mono (Nat.le_succ n)
    refine Follows.bind (ih hp' hmatch' hcs' hchain') ?_
    intro heres s'' course'' hp'' hmatch'' hall
    refine ⟨s'', .refl, hp'', hmatch'', ?_, ?_, ?_, ?_⟩
    · exact Nat.le_trans hvisited.size_le hall.size_le
    · intro j hj
      rw [hall.same j (Nat.lt_succ_of_lt hj), hsame j hj]
    · rw [List.length_cons, List.length_cons, hall.length_eq]
    · intro i hi
      cases i with
      | zero => rw [Nat.add_zero, hall.same n (Nat.lt_succ_self n), hvisited.facts,
        List.getElem?_cons_zero]
      | succ i =>
        rw [List.getElem?_cons_succ, ← hall.facts i (Nat.lt_of_succ_lt_succ hi)]
        congr 2
        omega

/-- Visiting a node that was entered before. -/
theorem runWith_visit_again {levels : Nat} {met : Facts N A β}
    (h : course.visited.contains (identity met.first) = true) :
    (visit plan visitor (levels + 1) above met).runWith course =
      (consult plan.rootVars visitor .backRef above none met >>=
        fun p => heed above p.2 p.1).runWith course := by
  rw [visit]
  change (if course.visited.contains (identity met.first) then _ else _ :
    Descent σ N A (Facts N A β)).runWith course = _
  rw [if_pos h]

/-- Visiting a node for the first time. -/
theorem runWith_visit_first {levels : Nat} {met : Facts N A β}
    (h : course.visited.contains (identity met.first) = false) :
    (visit plan visitor (levels + 1) above met).runWith course =
      match (consult plan.rootVars visitor .enter above none met).runWith course with
      | (.error stop, course) => (.error stop, course)
      | (.ok (control, here), course) =>
        let course := { course with visited := identity met.first :: course.visited }
        match control with
        | .quit => (.error .quit, course)
        | .abort => (.ok here, course)
        | .proceed =>
          let children := if here.deleted then .empty else plan.children here.node
          ((children.located.mapM fun p =>
            visit plan visitor levels (here :: above)
              (.discover p.2 (some p.1) course.accumulate)) >>= fun below =>
            consult plan.rootVars visitor .leave above (some (children.regroup below)) here >>=
              fun p => heed above p.2 p.1).runWith course := by
  rw [visit]
  change (if course.visited.contains (identity met.first) then _ else _ :
    Descent σ N A (Facts N A β)).runWith course = _
  rw [if_neg (by simpa using h)]
  cases hconsult : (consult plan.rootVars visitor .enter above none met).runWith course with
  | mk out course' =>
    cases out with
    | error stop => rw [Descent.runWith_bind_error hconsult]
    | ok p =>
      obtain ⟨control, here⟩ := p
      rw [Descent.runWith_bind_ok hconsult]
      cases control <;> rfl

omit [DecidableEq κ] in
theorem Touches.visited {arena : Arena N A β} {here : Facts N A β} (hc : arena[id]? = some c)
    (h : Touches arena id c here s) : Visited arena id here s := by
  obtain ⟨c', harena, hfacts, -⟩ := h
  refine ⟨?_, fun j _ hne => ?_, ?_⟩
  · exact Nat.le_of_eq (by rw [harena, Array.size_modify])
  · rw [harena, Array.getElem?_modify, if_neg (Ne.symm hne)]
  · rw [harena, Array.getElem?_modify_of_some hc, Option.map_some, hfacts]

omit [DecidableEq κ] in
/-- A node that is visited after something was done to it. -/
theorem Touches.then_visited {arena : Arena N A β} {s' : State N A β} {here there : Facts N A β}
    (h : Touches arena id c here s) (h' : Visited s.ledger.arena id there s') :
    Visited arena id there s' := by
  obtain ⟨c', harena, -⟩ := h
  have hsize : s.ledger.arena.size = arena.size := by rw [harena, Array.size_modify]
  refine ⟨hsize ▸ h'.size_le, fun j hj hne => ?_, h'.facts⟩
  rw [h'.same j (hsize ▸ hj) hne, harena, Array.getElem?_modify, if_neg (Ne.symm hne)]

/-- The first visit of a node, once it has been entered and goes on to its children. -/
theorem expand_follows {levels : Nat} (hmode : plan.mode = .depthFirst)
    (hvisit : FollowsVisit plan visitor levels) {rest : List Entry} (hp : s.pending = rest)
    (hmatch : s.Matches course) (hc : s.ledger.arena[id]? = some c)
    (hchain : s.ledger.arena.Chain id c.link above) :
    Follows plan visitor (s.expand plan id) course.own rest (Visited s.ledger.arena id)
      ((((if c.facts.deleted then .empty else plan.children c.facts.node).located.mapM fun p =>
          visit plan visitor levels (c.facts :: above)
            (.discover p.2 (some p.1) course.accumulate)) >>= fun below =>
        consult plan.rootVars visitor .leave above
          (some ((if c.facts.deleted then .empty else plan.children c.facts.node).regroup below))
          c.facts >>= fun p => heed above p.2 p.1).runWith course) := by
  have hid := Arena.lt_size_of_getElem? hc
  let n := s.ledger.arena.size
  let found : List (Context N A β) := plan.found c id s.accumulate
  let parent : Context N A β := { c with children := some ((plan.below c).number n) }
  change Follows _ _ _ _ _ _ ((((plan.below c).located.mapM fun p => _) >>= fun below =>
    consult _ _ _ _ (some ((plan.below c).regroup below)) _ >>= _).runWith course)
  have hbefore : ∀ j, j < id → (s.expand plan id).ledger.arena[j]? = s.ledger.arena[j]? :=
    fun j hj => s.expand_old plan (Nat.lt_trans hj hid) (Nat.ne_of_lt hj)
  have hparent : (s.expand plan id).ledger.arena[id]? = some parent := s.expand_self hc plan
  have hnew : ∀ i, i < found.length → (s.expand plan id).ledger.arena[n + i]? = found[i]? :=
    fun i _ => s.expand_new hc plan i
  have hfacts : found.map Context.facts = (plan.below c).located.map fun p =>
      Facts.discover p.2 (some p.1) course.accumulate := by
    show (plan.found c id s.accumulate).map Context.facts = _
    rw [Plan.found, List.map_map, ← hmatch.accumulate]
    rfl
  have hbelow : ∀ d ∈ found, (s.expand plan id).ledger.arena.Chain n d.link (c.facts :: above) := by
    intro d hd
    obtain ⟨p, -, rfl⟩ := Plan.exists_of_mem_found hd
    have hup : (s.expand plan id).ledger.arena.Chain id parent.link above := hchain.congr hbefore
    exact .link (c := parent) hid hparent hup
  have hmatch' : (s.expand plan id).Matches course := by
    rw [State.expand_eq hc]
    exact ⟨hmatch.visited, hmatch.accumulate, hmatch.edits⟩
  have hpending : (s.expand plan id).pending =
      (List.range' n found.length).map Entry.visit ++ .leave id :: rest := by
    rw [State.expand_pending hc, hmode, hp, Plan.length_found]
    simp [Mode.schedule, n]
  have hmapM := hvisit.mapM hpending hmatch' hnew hbelow
  rw [hfacts, List.mapM_map] at hmapM
  refine Follows.bind hmapM fun heres s' course' hp' hmatch'' hall => ?_
  -- all children have been visited, and the parent is as it was
  have hparent' : s'.ledger.arena[id]? = some parent := by
    rw [hall.same id hid, hparent]
  have hchain' : s'.ledger.arena.Chain id parent.link above :=
    hchain.congr fun j hj => (hall.same j (Nat.lt_trans hj hid)).trans (hbefore j hj)
  have hseen : Seen s'.ledger.arena id parent (some ((plan.below c).regroup heres)) .leave := by
    refine ⟨(plan.below c).number n, rfl, ?_, ?_⟩
    · rw [flatten_number, List.mem_range'_1]
      omega
    · have hlength : heres.length = (plan.below c).flatten.length :=
        hall.length_eq.trans Plan.length_found
      rw [map_filterMap, filterMap_number _ hall.facts hlength]
  refine Follows.imp (obey_follows (c := parent) hp' hmatch'' hparent' hchain' hseen rfl)
    fun here s'' htouches => ?_
  have hleft := htouches.visited hparent'
  have hsize : s.ledger.arena.size ≤ s'.ledger.arena.size :=
    Nat.le_trans ((s.expand_size hc plan).symm ▸ Nat.le_add_right _ _) hall.size_le
  refine ⟨Nat.le_trans hsize hleft.size_le, fun j hj hne => ?_, hleft.facts⟩
  rw [hleft.same j (Nat.lt_of_lt_of_le hj hsize) hne, hall.same j hj, s.expand_old plan hj hne]

/-- The first visit of a node. -/
theorem enter_follows {levels : Nat} (hmode : plan.mode = .depthFirst)
    (hvisit : FollowsVisit plan visitor levels) {rest : List Entry}
    (hp : s.pending = .visit id :: rest) (hmatch : s.Matches course)
    (hc : s.ledger.arena[id]? = some c) (hchain : s.ledger.arena.Chain id c.link above)
    (hfirst : course.visited.contains (identity c.facts.first) = false) :
    Follows plan visitor s course.own rest (Visited s.ledger.arena id)
      ((visit plan visitor (levels + 1) above c.facts).runWith course) := by
  rw [runWith_visit_first hfirst]
  have hcall := call_consult (s := { s with pending := rest })
    ⟨hmatch.visited, hmatch.accumulate, hmatch.edits⟩ hc hchain
    (show Seen s.ledger.arena id c none .enter from rfl) plan.rootVars visitor
  have hstep : step plan (visitor.comap Cursor.sight) (.visit id) { s with pending := rest } = _ :=
    step_first hc (hmatch.visited ▸ hfirst)
  cases hconsult : (consult plan.rootVars visitor .enter above none c.facts).runWith course with
  | mk out course' =>
    rw [hconsult] at hcall
    cases out with
    | error stop =>
      obtain ⟨e, rfl, hcall⟩ := hcall
      refine Fails.step hp ?_
      rw [hstep]
      exact Attempt.runWith_bind_error hcall _
    | ok p =>
      obtain ⟨control, here⟩ := p
      obtain ⟨s', c', hcall, harena, rfl, hlink, hchildren, hpending, hmatch'⟩ := hcall
      let s₁ : State N A β := { s' with visited := identity c.first :: s'.visited }
      have htouches : Touches s.ledger.arena id c c'.facts s₁ :=
        ⟨c', harena, rfl, hlink, hchildren⟩
      have hmatch₁ : s₁.Matches
          { course' with visited := identity c.first :: course'.visited } :=
        ⟨congrArg _ hmatch'.visited, hmatch'.accumulate, hmatch'.edits⟩
      have hrun : Runs plan (visitor.comap Cursor.sight) s course.own (s₁.entered plan id control)
          course'.own := by
        refine Runs.step hp ?_
        rw [hstep]
        exact Attempt.runWith_bind_ok hcall _
      cases control with
      | quit =>
        exact ⟨_, hrun, rfl, hmatch₁.visited, hmatch₁.accumulate, hmatch₁.edits⟩
      | abort => exact ⟨_, hrun, hpending, hmatch₁, htouches.visited hc⟩
      | proceed =>
        have hat : s₁.ledger.arena[id]? = some c' :=
          (congrArg (·[id]?) harena).trans (Array.getElem?_modify_of_some hc _)
        have hchain' : s₁.ledger.arena.Chain id c'.link above := by
          rw [hlink, show s₁.ledger.arena = _ from harena]
          exact hchain.modify _
        have hexpand := expand_follows (s := s₁) hmode hvisit hpending hmatch₁ hat hchain'
        exact Follows.of_runs hrun (hexpand.imp fun _ _ => htouches.then_visited)

/-- **A walk follows the recursion.** -/
theorem followsVisit (hmode : plan.mode = .depthFirst) (visitor : SightVisitor σ N A β)
    (levels : Nat) : FollowsVisit plan visitor levels := by
  induction levels with
  | zero =>
    intro above s course id c rest _ _ _ _
    trivial
  | succ levels ih =>
    intro above s course id c rest hp hmatch hc hchain
    cases hagain : course.visited.contains (identity c.facts.first) with
    | true =>
      rw [runWith_visit_again hagain]
      have hstep : step plan (visitor.comap Cursor.sight) (.visit id)
          { s with pending := rest } = _ := step_again hc (hmatch.visited ▸ hagain)
      exact Follows.imp (obey_follows hp hmatch hc hchain rfl hstep) fun _ _ h => h.visited hc
    | false => exact enter_follows hmode ih hp hmatch hc hchain hagain

/-! ### Whole walks -/

/-- The walk of the roots follows the recursion over them. -/
theorem start_follows (hmode : plan.mode = .depthFirst) (visitor : SightVisitor σ N A β)
    (levels : Nat) (recording : Bool) (roots : List N) (own : σ) :
    ∃ P, Follows plan visitor (start plan recording roots) own [] P
      ((visitRoots plan visitor levels roots).runWith
        { own, accumulate := plan.initial, edits := if recording then some [] else none }) := by
  let cs : List (Context N A β) := roots.map fun root => Context.discover root none none plan.initial
  have hpending : (start plan recording roots).pending =
      (List.range' 0 cs.length).map Entry.visit ++ [] := by
    rw [List.append_nil, List.length_map, ← List.range_eq_range']
    rfl
  have hmatch : (start plan recording roots).Matches
      ({ own, accumulate := plan.initial, edits := if recording then some [] else none } :
        Course σ N A) := ⟨rfl, rfl, rfl⟩
  have hcs : ∀ i, i < cs.length → (start plan recording roots).ledger.arena[0 + i]? = cs[i]? := by
    intro i _
    rw [Nat.zero_add]
    exact List.getElem?_toArray
  have hchain : ∀ c ∈ cs, (start plan recording roots).ledger.arena.Chain 0 c.link [] := by
    intro c hc
    obtain ⟨root, -, rfl⟩ := List.mem_map.mp hc
    exact .root 0
  have hmapM := (followsVisit hmode visitor levels).mapM hpending hmatch hcs hchain
  rw [List.map_map, List.mapM_map] at hmapM
  exact ⟨_, hmapM⟩

section Ends

variable {α : Type} {own : σ} {P : α → State N A β → Prop}

/-- Where the recursion ends or quits, the walk ends. -/
theorem Follows.ends {out : Except Stop α} (h : Follows plan visitor s own [] P (out, course))
    (hout : (∃ a, out = .ok a) ∨ out = .error .quit) :
    ∃ L s', s'.Matches course ∧ ∀ limit, L ≤ limit →
      (steps plan (visitor.comap Cursor.sight) limit s).runWith own = (.ok s', course.own) := by
  obtain ⟨s', ⟨k, hk⟩, hpending, hmatch⟩ : ∃ s', Runs plan (visitor.comap Cursor.sight) s own s'
      course.own ∧ s'.pending = [] ∧ s'.Matches course := by
    obtain ⟨a, rfl⟩ | rfl := hout
    · obtain ⟨s', hruns, hpending, hmatch, -⟩ := h
      exact ⟨s', hruns, hpending, hmatch⟩
    · exact h
  refine ⟨k, s', hmatch, fun limit hle => ?_⟩
  obtain ⟨limit, rfl⟩ := Nat.exists_eq_add_of_le hle
  rw [hk, steps_of_nil _ _ hpending, Walk.runWith_pure]

/-- Where the recursion fails, the walk fails. -/
theorem Follows.fails {e : Error}
    (h : Follows plan visitor s own [] P (.error (.failed e), course)) :
    ∃ L, ∀ limit, L ≤ limit →
      (steps plan (visitor.comap Cursor.sight) limit s).runWith own =
        (.error (.failed e), course.own) := by
  obtain ⟨k, hk⟩ := h
  refine ⟨k, fun limit hle => ?_⟩
  obtain ⟨limit, rfl⟩ := Nat.exists_eq_add_of_le hle
  exact hk limit

end Ends

/-- **A walk is the recursion**, provided that the recursion is not cut off and the limit is large.
-/
theorem traverse_of_descend (hmode : plan.mode = .depthFirst) (visitor : SightVisitor σ N A β)
    (levels : Nat) (roots : List N) (own : σ)
    (hends : ((descend plan visitor levels roots).runWith own).1 ≠ .error .exhausted) :
    ∃ L, ∀ limit, L ≤ limit →
      (traverse plan (visitor.comap Cursor.sight) limit roots).runWith own =
        (descend plan visitor levels roots).runWith own := by
  obtain ⟨P, hfollows⟩ := start_follows hmode visitor levels false roots own
  rw [runWith_descend] at hends ⊢
  simp only [Bool.false_eq_true, if_false] at hfollows
  generalize (visitRoots plan visitor levels roots).runWith
    { own, accumulate := plan.initial, edits := none } = result at hends hfollows ⊢
  obtain ⟨out, course⟩ := result
  have hok : (∃ a, out = .ok a) ∨ out = .error .quit →
      ∃ L, ∀ limit, L ≤ limit →
        (traverse plan (visitor.comap Cursor.sight) limit roots).runWith own =
          (.ok course.accumulate, course.own) := fun hout => by
    obtain ⟨L, s', hmatch, hsteps⟩ := hfollows.ends hout
    refine ⟨L, fun limit hle => ?_⟩
    rw [traverse, walk, Walk.runWith_bind_ok (hsteps limit hle), Walk.runWith_pure,
      hmatch.accumulate]
  match out with
  | .ok a => exact hok (.inl ⟨a, rfl⟩)
  | .error .quit => exact hok (.inr rfl)
  | .error (.failed e) =>
    obtain ⟨L, hsteps⟩ := hfollows.fails
    refine ⟨L, fun limit hle => ?_⟩
    rw [traverse, walk, Walk.runWith_bind_error (hsteps limit hle)]
    rfl
  | .error .exhausted => exact absurd rfl hends

end Traversal

end Arborist
