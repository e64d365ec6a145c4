import Arborist.Proofs.InStep

/-!
# The callbacks of a walk

What a walk does can be told from its callbacks. An `Event` is one of them: the context it is about,
the phase, what it saw when it was called, and what it came to. `callbacks` lists those of a whole
walk, in order; they are what a visitor with a log writes down (`walk_logging`).

All that a callback decides about the rest of a walk is whether it fails, quits, passes over the
children or goes on to them, and which node it goes on with. So every statement about the order of
callbacks rests on two facts only:

* `step_continues` says what one step can do (`Continues`), with the contexts reduced to their
  **outline**: the nodes as they were first met, and the links between them.
* `events_invariant` carries an invariant along a run of steps, together with what it says about the
  callbacks so far.
-/

namespace Arborist

variable {σ N A κ : Type} {β : κ → Type}

/-! ### What requests do to a context -/

/-- What a request can make of the context that it is made on. Every request may be refused. -/
inductive Request.Alters [DecidableEq κ] (c : Context N A β) :
    Request N A β → Context N A β → Prop where
  | refused (q : Request N A β) : Alters c q c
  | setVar (key : κ) (value : β key) :
      Alters c (.setVar key value) { c with vars := c.vars.insert key value }
  | setAccumulate (accumulate : A) :
      Alters c (.setAccumulate accumulate) { c with next := some accumulate }
  | change (node : N) : Alters c (.change node) { c with node, changed := true }
  | delete : Alters c .delete { c with deleted := true }
  | replace (node : N) : Alters c (.replace node) { c with node, changed := true }
  | remove : Alters c .remove { c with deleted := true }

namespace Request.Alters

variable [DecidableEq κ] {c c' : Context N A β} {q : Request N A β}

/-- No request moves a context or forgets how it was first met. -/
theorem keeps (h : q.Alters c c') : c'.first = c.first ∧ c'.link = c.link := by
  cases h <;> exact ⟨rfl, rfl⟩

end Request.Alters

namespace Spot

variable {spot : Spot N A β} {l : Ledger N A β} {c : Context N A β}

/-- A request that leaves the contexts alone. -/
theorem alters_of_arena_eq [DecidableEq κ] {l' : Ledger N A β} (hc : l.arena[spot.id]? = some c)
    (q : Request N A β) (h : l'.arena = l.arena) :
    ∃ c', l'.arena = l.arena.modify spot.id (fun _ => c') ∧ q.Alters c c' :=
  ⟨c, h.trans (Arena.modify_self hc).symm, .refused q⟩

/-- A request that changes the context. -/
theorem alters_of_modify [DecidableEq κ] {l' : Ledger N A β} (hc : l.arena[spot.id]? = some c)
    {q : Request N A β} (f : Context N A β → Context N A β) (hq : q.Alters c (f c))
    (h : l'.arena = l.arena.modify spot.id f) :
    ∃ c', l'.arena = l.arena.modify spot.id (fun _ => c') ∧ q.Alters c c' :=
  ⟨f c, h.trans (Arena.modify_eq hc f), hq⟩

theorem runWith_ensureRecording_none (h : l.edits = none) :
    spot.ensureRecording.runWith l = (.error (.notRecording (spot.place l)), l) := by
  show Attempt.runWith (if l.edits.isNone then _ else _) l = _
  rw [h]
  rfl

/-- A request that needs a record is refused without one. -/
theorem alters_of_recording [DecidableEq κ] (hc : l.arena[spot.id]? = some c) {q : Request N A β}
    {rest : Unit → Attempt (Ledger N A β) Unit}
    (h : l.edits = some l.log → ∃ c', ((rest ()).runWith l).2.arena =
      l.arena.modify spot.id (fun _ => c') ∧ q.Alters c c') :
    ∃ c', ((spot.ensureRecording >>= rest).runWith l).2.arena =
      l.arena.modify spot.id (fun _ => c') ∧ q.Alters c c' := by
  cases hedits : l.edits with
  | none =>
    rw [Attempt.runWith_bind_error (runWith_ensureRecording_none hedits)]
    exact alters_of_arena_eq hc q rfl
  | some log =>
    have hrecording : l.edits = some l.log := by rw [Ledger.log, hedits, Option.getD_some]
    rw [Attempt.runWith_bind_ok (runWith_ensureRecording hrecording)]
    exact h hrecording

theorem arena_amend [Identified N] (previous : Identity N) (node : N) {log : List (Zipper N)}
    (hrecording : l.edits = some log) : ((spot.amend previous node).runWith l).2.arena = l.arena := by
  rw [runWith_amend previous node hrecording]
  split <;> rfl

section Alters

variable [DecidableEq κ] (hc : l.arena[spot.id]? = some c)

include hc

theorem change_alters (node : N) : ∃ c', ((spot.change node).runWith l).2.arena =
    l.arena.modify spot.id (fun _ => c') ∧ (Request.change node).Alters c c' := by
  rw [runWith_change]
  split
  · exact alters_of_arena_eq hc _ rfl
  · exact alters_of_modify hc (fun c => { c with node, changed := true }) (.change node) rfl

theorem delete_alters : ∃ c', (spot.delete.runWith l).2.arena =
    l.arena.modify spot.id (fun _ => c') ∧ Request.delete.Alters c c' := by
  rw [runWith_delete]
  split
  · exact alters_of_arena_eq hc _ rfl
  · split
    · exact alters_of_arena_eq hc _ rfl
    · exact alters_of_modify hc (fun c => { c with deleted := true }) .delete rfl

theorem replace_alters [Identified N] (node : N) : ∃ c', ((spot.replace node).runWith l).2.arena =
    l.arena.modify spot.id (fun _ => c') ∧ (Request.replace node).Alters c c' := by
  have hchange : (spot.change node).runWith l = _ := runWith_change node
  refine alters_of_recording hc fun hrecording => ?_
  change ∃ c', (Attempt.runWith (do
      spot.change node
      if (spot.context l).changed then
        spot.amend (identity (spot.context l).node) node
      else
        modify fun l : Ledger N A β => l.record (spot.zipper l node .replace)) l).2.arena = _ ∧ _
  by_cases hdeleted : (spot.context l).deleted = true
  · rw [if_pos hdeleted] at hchange
    rw [Attempt.runWith_bind_error hchange]
    exact alters_of_arena_eq hc _ rfl
  · rw [if_neg hdeleted] at hchange
    rw [Attempt.runWith_bind_ok hchange]
    refine alters_of_modify hc (fun c => { c with node, changed := true }) (.replace node) ?_
    split
    · exact arena_amend _ _ hrecording
    · rfl

theorem remove_alters : ∃ c', (spot.remove.runWith l).2.arena =
    l.arena.modify spot.id (fun _ => c') ∧ Request.remove.Alters c c' := by
  have hdelete : spot.delete.runWith l = _ := runWith_delete
  refine alters_of_recording hc fun _ => ?_
  by_cases hdeleted : (spot.context l).deleted = true
  · rw [if_pos hdeleted] at hdelete
    rw [Attempt.runWith_bind_error hdelete]
    exact alters_of_arena_eq hc _ rfl
  · rw [if_neg hdeleted] at hdelete
    by_cases hchanged : (spot.context l).changed = true
    · rw [if_pos hchanged] at hdelete
      rw [Attempt.runWith_bind_error hdelete]
      exact alters_of_arena_eq hc _ rfl
    · rw [if_neg hchanged] at hdelete
      rw [Attempt.runWith_bind_ok hdelete]
      exact alters_of_modify hc (fun c => { c with deleted := true }) .remove rfl

theorem insertBeside_alters (q : Request N A β) (node : N) (edit : Edit) :
    ∃ c', ((spot.insertBeside node edit).runWith l).2.arena =
      l.arena.modify spot.id (fun _ => c') ∧ q.Alters c c' := by
  refine alters_of_recording hc fun _ => alters_of_arena_eq hc q ?_
  show (Attempt.runWith (if (spot.context l).link.isNone then _ else _) l).2.arena = _
  split <;> rfl

/-- **A request concerns one context**, and alters it as the kind of the request allows. -/
theorem perform_alters [Identified N] (q : Request N A β) :
    ∃ c', ((spot.perform q).runWith l).2.arena = l.arena.modify spot.id (fun _ => c') ∧
      q.Alters c c' := by
  cases q with
  | setVar key value =>
    exact alters_of_modify hc (fun c => { c with vars := c.vars.insert key value })
      (.setVar key value) rfl
  | setAccumulate accumulate =>
    exact alters_of_modify hc (fun c => { c with next := some accumulate })
      (.setAccumulate accumulate) rfl
  | change node => exact change_alters hc node
  | delete => exact delete_alters hc
  | replace node => exact replace_alters hc node
  | remove => exact remove_alters hc
  | insertBefore node => exact insertBeside_alters hc _ node _
  | insertAfter node => exact insertBeside_alters hc _ node _

end Alters

end Spot

/-! ### Outlines -/

namespace Arena

variable {arena : Arena N A β} {id : Nat} {c c' : Context N A β}

/-- The **outline** of an arena: the nodes of the contexts as they were first met, and the links. -/
def outline (arena : Arena N A β) : List (N × Option Link) :=
  arena.toList.map fun c => (c.first, c.link)

@[simp] theorem length_outline (arena : Arena N A β) : arena.outline.length = arena.size := by
  rw [outline, List.length_map, Array.length_toList]

theorem getElem?_outline (arena : Arena N A β) (id : Nat) :
    arena.outline[id]? = arena[id]?.map fun c => (c.first, c.link) := by
  rw [outline, List.getElem?_map, Array.getElem?_toList]

/-- What does not concern first nodes and links does not show in the outline. -/
theorem outline_modify {f : Context N A β → Context N A β}
    (hf : ∀ c, arena[id]? = some c → (f c).first = c.first ∧ (f c).link = c.link) :
    outline (arena.modify id f) = arena.outline := by
  apply List.ext_getElem?
  intro j
  rw [getElem?_outline, getElem?_outline, Array.getElem?_modify]
  split
  · next hid =>
    subst hid
    cases hc : arena[id]? with
    | none => rfl
    | some c =>
      obtain ⟨hfirst, hlink⟩ := hf c hc
      simp only [Option.map_some, hfirst, hlink]
  · rfl

theorem outline_append (arena : Arena N A β) (found : List (Context N A β)) :
    outline (arena ++ found.toArray) = arena.outline ++ found.map fun c => (c.first, c.link) := by
  rw [outline, outline, Array.toList_append, List.map_append]

end Arena

/-! ### Events -/

/-- A context **meets** a condition on its first node, its node, and whether it was deleted. -/
def Context.Meets (K : N → N → Bool → Prop) (c : Context N A β) : Prop :=
  K c.first c.node c.deleted

namespace Traversal

variable [Identified N] [DecidableEq κ]

/-- The **event** of a callback. -/
structure Event (N A : Type) {κ : Type} (β : κ → Type) [Identified N] where
  /-- The place of the context. -/
  id : Nat
  phase : Phase
  /-- What the callback saw when it was called. -/
  seen : Cursor N A β
  /-- What the callback said, or why it failed. -/
  outcome : Except Error Control

namespace Event

/-- The node of the context as it was first met. -/
def first (e : Event N A β) : N :=
  e.seen.here.first

/-- The pending entry that led to the callback. -/
def entry (e : Event N A β) : Entry :=
  if e.phase = .leave then .leave e.id else .visit e.id

/-- Whether a node was entered and its children come next. -/
def opens (e : Event N A β) : Bool :=
  match e.phase, e.outcome with
  | .enter, .ok .proceed => true
  | _, _ => false

/-- The nodes that have been entered after the callback. -/
def marks (e : Event N A β) (visited : List (Identity N)) : List (Identity N) :=
  if e.phase = .enter then identity e.first :: visited else visited

omit [DecidableEq κ] in
theorem entry_of_leave {e : Event N A β} (h : e.phase = .leave) : e.entry = .leave e.id :=
  if_pos h

omit [DecidableEq κ] in
theorem entry_of_ne {e : Event N A β} (h : e.phase ≠ .leave) : e.entry = .visit e.id :=
  if_neg h

end Event

namespace State

/-- The outline of the contexts. -/
def outline (s : State N A β) : List (N × Option Link) :=
  s.ledger.arena.outline

/-- All contexts meet a condition. -/
def Meets (K : N → N → Bool → Prop) (s : State N A β) : Prop :=
  ∀ (id : Nat) (c : Context N A β), s.ledger.arena[id]? = some c → c.Meets K

/-- A context that is prepared for a callback. -/
def readied (s : State N A β) (phase : Phase) (c : Context N A β) : Context N A β :=
  { c with current := s.accumulate, next := none, phase := some phase }

/-- The callback that is made for an entry, if its context is known. -/
def event? (s : State N A β) (plan : Plan N A β) (visitor : SequentialVisitor σ N A β)
    (entry : Entry) (own : σ) : Option (Event N A β) :=
  s.ledger.arena[entry.id]?.map fun c =>
    let phase := s.phaseOf entry
    let start := s.readied phase c
    { id := entry.id
      phase
      seen := Spot.cursor ⟨entry.id, start⟩ plan.rootVars s.visited
        (s.ledger.modifyAt entry.id fun _ => start)
      outcome :=
        ((s.call plan.rootVars entry.id phase (visitor.on phase)).runWith own).1.map Prod.fst }

/-- How a walk reacts to what a callback says about a node that was first met as `first`. -/
def react (s : State N A β) (plan : Plan N A β) (first : N) (id : Nat) :
    Phase → Control → Attempt σ (State N A β)
  | .enter, control =>
    pure (State.entered { s with visited := identity first :: s.visited } plan id control)
  | .leave, control | .backRef, control => s.obey id control

end State

variable {plan : Plan N A β} {visitor : SequentialVisitor σ N A β} {entry : Entry}
  {s s' : State N A β} {id : Nat} {c : Context N A β} {K : N → N → Bool → Prop}
  {R : Except Error Control → Prop}

/-- A step calls back and reacts. -/
theorem step_eq (hc : s.ledger.arena[entry.id]? = some c) :
    step plan visitor entry s =
      s.call plan.rootVars entry.id (s.phaseOf entry) (visitor.on (s.phaseOf entry)) >>= fun p =>
        p.2.react plan c.first entry.id (s.phaseOf entry) p.1 := by
  cases entry with
  | leave id => rfl
  | visit id =>
    rw [Entry.id] at hc
    rw [State.phaseOf, hc]
    dsimp only
    cases hvisited : s.visited.contains (identity c.first) with
    | true => exact step_again hc hvisited
    | false => exact step_first hc hvisited

/-! ### What a step can do -/

/-- A visitor **upholds** a condition on contexts and one on outcomes: its requests preserve the
first, and so do the children that are discovered, and all its callbacks come to the second. -/
structure Upholds (plan : Plan N A β) (visitor : SequentialVisitor σ N A β)
    (K : N → N → Bool → Prop) (R : Except Error Control → Prop) : Prop where
  requests : visitor.Requests fun q => ∀ c c' : Context N A β, q.Alters c c' → c.Meets K →
    c'.Meets K
  children : ∀ {c : Context N A β}, c.Meets K → ∀ m ∈ (plan.below c).flatten, K m m false
  outcomes : ∀ phase own, Program.Ends (fun out => R out.1) (visitor.on phase own)

/-- An event is what happens when an entry is **taken** up. -/
structure Event.Takes (e : Event N A β) (s : State N A β) (entry : Entry) : Prop where
  entry : e.entry = entry
  /-- A node is entered only if it was not entered before, and is met again only if it was. -/
  new : e.phase = .enter → identity e.first ∉ s.visited
  again : e.phase = .backRef → identity e.first ∈ s.visited
  outline : e.seen.arena.outline = s.outline
  here : s.outline[e.id]? = some (e.first, e.seen.here.link)

/-- How a walk **continues** after a callback. -/
inductive Continues (plan : Plan N A β) (K : N → N → Bool → Prop) (s : State N A β)
    (e : Event N A β) : Except Error (State N A β) → Prop where
  /-- The callback failed, or it said what it may not say. -/
  | failed (error : Error) (unwilling : e.outcome ≠ .ok .proceed) :
      Continues plan K s e (.error error)
  /-- The callback quit. -/
  | ended {s' : State N A β} (unwilling : e.outcome ≠ .ok .proceed)
      (outline : s'.outline = s.outline) (visited : s'.visited = e.marks s.visited)
      (pending : s'.pending = []) : Continues plan K s e (.ok s')
  /-- The walk goes on with what is pending. -/
  | passed {s' : State N A β} (shut : e.opens = false) (outline : s'.outline = s.outline)
      (visited : s'.visited = e.marks s.visited) (pending : s'.pending = s.pending) :
      Continues plan K s e (.ok s')
  /-- The children of the node are discovered and become pending. -/
  | opened {s' : State N A β} {c : Context N A β} (opens : e.opens = true) (meets : c.Meets K)
      (first : c.first = e.first)
      (outline : s'.outline = s.outline ++
        (plan.below c).located.map fun p => (p.2, some ⟨e.id, p.1⟩))
      (visited : s'.visited = e.marks s.visited)
      (pending : s'.pending = plan.mode.schedule e.id
        (List.range' s.outline.length (plan.below c).flatten.length) s.pending) :
      Continues plan K s e (.ok s')

/-- **Callbacks** leave everything but their own context alone. -/
theorem State.call_meets {rootVars : Vars β} {phase : Phase} {control : Control} {own own' : σ}
    {callback : Callback σ (Cursor N A β) (Request N A β) Control}
    (hc : s.ledger.arena[id]? = some c)
    (hrequests : (callback own).Requests fun q => ∀ c c' : Context N A β, q.Alters c c' →
      c.Meets K → c'.Meets K)
    (hmeets : c.Meets K)
    (h : (s.call rootVars id phase callback).runWith own = (.ok (control, s'), own')) :
    ∃ c', c'.Meets K ∧ c'.first = c.first ∧ c'.link = c.link ∧
      s'.ledger.arena = s.ledger.arena.modify id (fun _ => c') ∧ s'.pending = s.pending ∧
      s'.visited = s.visited := by
  let spot : Spot N A β := ⟨id, s.readied phase c⟩
  -- whatever has been requested so far, the arena differs at `id` only
  let Kept : Ledger N A β → Prop := fun l => ∃ c' : Context N A β,
    (c'.Meets K ∧ c'.first = c.first ∧ c'.link = c.link) ∧
      l.arena = s.ledger.arena.modify id fun _ => c'
  have hperform : ∀ (q : Request N A β) (l : Ledger N A β),
      (∀ c c' : Context N A β, q.Alters c c' → c.Meets K → c'.Meets K) → Kept l →
        Kept ((spot.perform q).runWith l).2 := by
    rintro q l hq ⟨d, ⟨hd, hfirst, hlink⟩, harena⟩
    have hat : l.arena[spot.id]? = some d := by
      rw [harena, Array.getElem?_modify_of_some hc]
    obtain ⟨d', harena', halters⟩ := Spot.perform_alters hat q
    obtain ⟨hfirst', hlink'⟩ := halters.keeps
    refine ⟨d', ⟨hq d d' halters hd, hfirst'.trans hfirst, hlink'.trans hlink⟩, ?_⟩
    rw [harena', harena, Array.modify_modify_const]
  have hstart : Kept (s.ledger.modifyAt id fun _ => s.readied phase c) :=
    ⟨s.readied phase c, ⟨hmeets, rfl, rfl⟩, rfl⟩
  obtain ⟨c', ⟨hmeets', hfirst, hlink⟩, harena⟩ :=
    Program.run_invariant (spot.cursor rootVars s.visited) hperform hrequests hstart
  rw [State.eq_of_call_ok hc h]
  exact ⟨c', hmeets', hfirst, hlink, harena, rfl, rfl⟩

theorem State.call_outcome {rootVars : Vars β} {phase : Phase} {own : σ}
    {callback : Callback σ (Cursor N A β) (Request N A β) Control}
    (hc : s.ledger.arena[id]? = some c) (h : (callback own).Ends fun out => R out.1) :
    R (((s.call rootVars id phase callback).runWith own).1.map Prod.fst) := by
  let spot : Spot N A β := ⟨id, s.readied phase c⟩
  have hout := h.run (spot.cursor rootVars s.visited) spot.perform
    (s.ledger.modifyAt id fun _ => s.readied phase c)
  rw [State.runWith_call hc]
  change R (Except.map Prod.fst (Except.map _ (Program.run (spot.cursor rootVars s.visited)
    spot.perform (callback own) (s.ledger.modifyAt id fun _ => s.readied phase c)).1.1))
  generalize (Program.run (spot.cursor rootVars s.visited) spot.perform (callback own)
    (s.ledger.modifyAt id fun _ => s.readied phase c)).1.1 = out at hout ⊢
  cases out <;> exact hout

omit [DecidableEq κ] in
theorem State.outline_modify {c' : Context N A β} (hc : s.ledger.arena[id]? = some c)
    (hfirst : c'.first = c.first) (hlink : c'.link = c.link)
    (harena : s'.ledger.arena = s.ledger.arena.modify id fun _ => c') : s'.outline = s.outline := by
  rw [outline, outline, harena]
  refine Arena.outline_modify fun d hd => ?_
  obtain rfl := Option.some.inj (hc.symm.trans hd)
  exact ⟨hfirst, hlink⟩

omit [DecidableEq κ] in
theorem State.Meets.modify {c' : Context N A β} (h : s.Meets K) (hc' : c'.Meets K)
    (harena : s'.ledger.arena = s.ledger.arena.modify id fun _ => c') : s'.Meets K := by
  intro j d hd
  rw [harena, Array.getElem?_modify] at hd
  split at hd
  · obtain ⟨_, -, rfl⟩ := Option.map_eq_some_iff.mp hd
    exact hc'
  · exact h j d hd

/-- **Expanding** a node adds the contexts of its children. -/
theorem State.expand_meets (hup : Upholds plan visitor K R) (h : s.Meets K)
    (hc : s.ledger.arena[id]? = some c) :
    (s.expand plan id).Meets K ∧
      (s.expand plan id).outline = s.outline ++
        (plan.below c).located.map (fun p => (p.2, some ⟨id, p.1⟩)) ∧
      (s.expand plan id).visited = s.visited ∧
      (s.expand plan id).pending = plan.mode.schedule id
        (List.range' s.outline.length (plan.below c).flatten.length) s.pending := by
  refine ⟨fun j d hd => ?_, ?_, by rw [expand_eq hc], ?_⟩
  · rcases expand_cases hd with ⟨d', hd', _, rfl⟩ | ⟨-, c', hc', p, hp, rfl⟩
    · exact h j d' hd'
    · obtain rfl := Option.some.inj (hc.symm.trans hc')
      exact hup.children (h id c hc) _ (mem_flatten_of_located hp)
  · rw [expand_eq hc]
    show Arena.outline (Array.modify _ id _) = _
    rw [Arena.outline_modify, Arena.outline_append, Plan.found, List.map_map]
    · rfl
    · exact fun _ _ => ⟨rfl, rfl⟩
  · rw [expand_pending hc, State.outline, Arena.length_outline]

section Event

variable {own : σ} {e : Event N A β}

omit [DecidableEq κ] in
theorem State.phaseOf_visit (hc : s.ledger.arena[id]? = some c) :
    s.phaseOf (.visit id) =
      if s.visited.contains (identity c.first) then .backRef else .enter := by
  rw [State.phaseOf, hc]

/-- The event of an entry whose context is known. -/
theorem State.event?_spec (hc : s.ledger.arena[entry.id]? = some c)
    (h : s.event? plan visitor entry own = some e) :
    e.id = entry.id ∧ e.phase = s.phaseOf entry ∧ e.first = c.first ∧ e.seen.here.link = c.link ∧
      e.seen.arena.outline = s.outline ∧
      e.outcome = ((s.call plan.rootVars entry.id (s.phaseOf entry)
        (visitor.on (s.phaseOf entry))).runWith own).1.map Prod.fst := by
  rw [State.event?, hc] at h
  obtain rfl := Option.some.inj h
  have hhere : Spot.context ⟨entry.id, s.readied (s.phaseOf entry) c⟩
      (s.ledger.modifyAt entry.id fun _ => s.readied (s.phaseOf entry) c) =
        s.readied (s.phaseOf entry) c :=
    Array.getD_modify_const _ (Arena.lt_size_of_getElem? hc) _ _
  have hfirst := congrArg Context.first hhere
  have hlink := congrArg Context.link hhere
  refine ⟨rfl, rfl, hfirst, hlink, ?_, rfl⟩
  refine Arena.outline_modify fun d hd => ?_
  obtain rfl := Option.some.inj (hc.symm.trans hd)
  exact ⟨rfl, rfl⟩

theorem State.event?_takes (hc : s.ledger.arena[entry.id]? = some c)
    (h : s.event? plan visitor entry own = some e) : e.Takes s entry := by
  obtain ⟨hid, hphase, hfirst, hlink, houtline, -⟩ := State.event?_spec hc h
  have hhere : s.outline[e.id]? = some (e.first, e.seen.here.link) := by
    rw [State.outline, Arena.getElem?_outline, hid, hc, hfirst, hlink]
    rfl
  cases entry with
  | leave id =>
    rw [State.phaseOf] at hphase
    refine ⟨?_, fun henter => ?_, fun hback => ?_, houtline, hhere⟩
    · rw [Event.entry_of_leave hphase, hid]
      rfl
    · cases hphase.symm.trans henter
    · cases hphase.symm.trans hback
  | visit id =>
    rw [Entry.id] at hc
    rw [State.phaseOf_visit hc] at hphase
    have hphases : e.phase = .backRef ∧ identity e.first ∈ s.visited ∨
        e.phase = .enter ∧ identity e.first ∉ s.visited := by
      rw [hphase, hfirst]
      by_cases hvisited : s.visited.contains (identity c.first) = true
      · exact .inl ⟨if_pos hvisited, by simpa using hvisited⟩
      · exact .inr ⟨if_neg hvisited, by simpa using hvisited⟩
    rcases hphases with ⟨hback, hmem⟩ | ⟨henter, hnot⟩
    · refine ⟨?_, fun henter => ?_, fun _ => hmem, houtline, hhere⟩
      · rw [Event.entry_of_ne (by rw [hback]; decide), hid]
        rfl
      · cases hback.symm.trans henter
    · refine ⟨?_, fun _ => hnot, fun hback => ?_, houtline, hhere⟩
      · rw [Event.entry_of_ne (by rw [henter]; decide), hid]
        rfl
      · cases henter.symm.trans hback

/-- What reacting to a callback comes to. -/
theorem react_continues {s₁ : State N A β} {control : Control} (hup : Upholds plan visitor K R)
    (hs₁ : s₁.Meets K) (hc : s₁.ledger.arena[e.id]? = some c) (hfirst : c.first = e.first)
    (houtcome : e.outcome = .ok control) (houtline : s₁.outline = s.outline)
    (hpending : s₁.pending = s.pending) (hvisited : s₁.visited = s.visited) (own : σ) :
    Continues plan K s e ((s₁.react plan e.first e.id e.phase control).runWith own).1 ∧
      ∀ s', ((s₁.react plan e.first e.id e.phase control).runWith own).1 = .ok s' → s'.Meets K := by
  have hunwilling : control ≠ .proceed → e.outcome ≠ .ok .proceed := by
    rw [houtcome]
    exact fun hne heq => hne (Except.ok.inj heq)
  have hopens : e.opens = true ↔ e.phase = .enter ∧ control = .proceed := by
    rw [Event.opens, houtcome]
    cases e.phase <;> cases control <;> simp
  by_cases hphase : e.phase = .enter
  · -- the node counts as entered whatever the callback says
    have hmarks : identity e.first :: s₁.visited = e.marks s.visited := by
      rw [Event.marks, if_pos hphase, hvisited]
    rw [hphase]
    let s₂ : State N A β := { s₁ with visited := identity e.first :: s₁.visited }
    cases control with
    | proceed =>
      obtain ⟨hmeets, houtline', hvisited', hpending'⟩ := State.expand_meets (s := s₂) hup hs₁ hc
      refine ⟨.opened (hopens.mpr ⟨hphase, rfl⟩) (hs₁ _ c hc) hfirst ?_ (hvisited'.trans hmarks) ?_,
        fun s' h => Except.ok.inj h ▸ hmeets⟩
      · rw [← houtline]
        exact houtline'
      · rw [← houtline, ← hpending]
        exact hpending'
    | quit =>
      exact ⟨.ended (hunwilling (by decide)) houtline hmarks rfl,
        fun s' h => Except.ok.inj h ▸ hs₁⟩
    | abort =>
      have hshut : e.opens = false := by
        rw [Bool.eq_false_iff, Ne, hopens]
        exact fun h => absurd h.2 (by decide)
      exact ⟨.passed hshut houtline hmarks hpending, fun s' h => Except.ok.inj h ▸ hs₁⟩
  · have hmarks : s₁.visited = e.marks s.visited := by rw [Event.marks, if_neg hphase, hvisited]
    have hshut : e.opens = false := by
      rw [Bool.eq_false_iff, Ne, hopens]
      exact fun h => hphase h.1
    have hreact : s₁.react plan e.first e.id e.phase control =
        (s₁.obey e.id control : Attempt σ (State N A β)) := by
      cases hp : e.phase with
      | enter => exact absurd hp hphase
      | leave | backRef => rfl
    rw [hreact]
    cases control with
    | proceed => exact ⟨.passed hshut houtline hmarks hpending, fun s' h => Except.ok.inj h ▸ hs₁⟩
    | quit =>
      exact ⟨.ended (hunwilling (by decide)) houtline hmarks rfl,
        fun s' h => Except.ok.inj h ▸ hs₁⟩
    | abort =>
      rw [State.obey, hc]
      exact ⟨.failed _ (hunwilling (by decide)), fun s' h => by cases h⟩

/-- **What a step can do.** -/
theorem step_continues (hup : Upholds plan visitor K R) (hs : s.Meets K)
    (hid : entry.id < s.outline.length) (own : σ) :
    ∃ e, s.event? plan visitor entry own = some e ∧ e.Takes s entry ∧ R e.outcome ∧
      Continues plan K s e ((step plan visitor entry s).runWith own).1 ∧
      ∀ s', ((step plan visitor entry s).runWith own).1 = .ok s' → s'.Meets K := by
  rw [State.outline, Arena.length_outline] at hid
  obtain ⟨c, hc⟩ : ∃ c, s.ledger.arena[entry.id]? = some c := ⟨_, Array.getElem?_eq_getElem hid⟩
  obtain ⟨e, he⟩ : ∃ e, s.event? plan visitor entry own = some e := by
    rw [State.event?, hc]
    exact ⟨_, rfl⟩
  obtain ⟨heid, hphase, hfirst, -, -, houtcome⟩ := State.event?_spec hc he
  refine ⟨e, he, State.event?_takes hc he, ?_, ?_⟩
  · rw [houtcome]
    exact State.call_outcome hc (hup.outcomes _ own)
  rw [step_eq hc, ← hphase, ← heid, ← hfirst]
  rw [← hphase, ← heid] at houtcome
  rw [← heid] at hc
  cases hcall : (s.call plan.rootVars e.id e.phase (visitor.on e.phase)).runWith own with
  | mk out own₁ =>
    rw [hcall] at houtcome
    cases out with
    | error error =>
      rw [Attempt.runWith_bind_error hcall]
      refine ⟨.failed error fun h => ?_, fun s' h => ?_⟩
      · cases houtcome.symm.trans h
      · cases h
    | ok p =>
      obtain ⟨control, s₁⟩ := p
      rw [Attempt.runWith_bind_ok hcall]
      obtain ⟨c', hmeets, hfirst', hlink, harena, hpending, hvisited⟩ :=
        State.call_meets hc (hup.requests e.phase own) (hs _ c hc) hcall
      have houtline := State.outline_modify hc hfirst' hlink harena
      have hs₁ : s₁.Meets K := hs.modify hmeets harena
      have hat : s₁.ledger.arena[e.id]? = some c' := by
        rw [harena, Array.getElem?_modify_of_some hc]
      exact react_continues hup hs₁ hat (hfirst'.trans hfirst.symm) houtcome houtline hpending
        hvisited own₁

end Event

/-! ### Runs -/

/-- The callbacks of at most `limit` steps. A callback that fails is the last one. -/
def events (plan : Plan N A β) (visitor : SequentialVisitor σ N A β) :
    Nat → State N A β → σ → List (Event N A β)
  | 0, _, _ => []
  | limit + 1, s, own =>
    match s.pending with
    | [] => []
    | entry :: pending =>
      (State.event? { s with pending } plan visitor entry own).toList ++
        match (step plan visitor entry { s with pending }).runWith own with
        | (.ok s', own') => events plan visitor limit s' own'
        | (.error _, _) => []

/-- The **callbacks** of a walk, in order. -/
def callbacks (plan : Plan N A β) (visitor : SequentialVisitor σ N A β) (recording : Bool)
    (limit : Nat) (roots : List N) (own : σ) : List (Event N A β) :=
  events plan visitor limit (start plan recording roots) own

theorem events_of_nil {limit : Nat} (h : s.pending = []) (own : σ) :
    events plan visitor limit s own = [] := by
  cases limit with
  | zero => rfl
  | succ limit => rw [events, h]

theorem events_of_cons {limit : Nat} {pending : List Entry} (h : s.pending = entry :: pending)
    (own : σ) : events plan visitor (limit + 1) s own =
      (State.event? { s with pending } plan visitor entry own).toList ++
        match (step plan visitor entry { s with pending }).runWith own with
        | (.ok s', own') => events plan visitor limit s' own'
        | (.error _, _) => [] := by
  rw [events, h]

/-- What a run of steps **concludes** with: an end at which nothing is pending, a callback that did
not say to go on, or the limit. -/
def Concludes (I : State N A β → Prop) (es : List (Event N A β)) (limit : Nat) :
    Except Interrupt (State N A β) → Prop
  | .ok s => I s ∧ s.pending = []
  | .error (.failed _) => ∃ e ∈ es, e.outcome ≠ .ok .proceed
  | .error .exhausted => es.length = limit

omit [DecidableEq κ] in
theorem Concludes.cons {I : State N A β → Prop} {es : List (Event N A β)} {limit : Nat}
    {result : Except Interrupt (State N A β)} (h : Concludes I es limit result) (e : Event N A β) :
    Concludes I (e :: es) (limit + 1) result := by
  match result, h with
  | .ok _, h => exact h
  | .error (.failed _), ⟨x, hx, hne⟩ => exact ⟨x, List.mem_cons_of_mem e hx, hne⟩
  | .error .exhausted, h => exact congrArg Nat.succ h

/-- What **every step preserves**. The invariant `I` is about the callbacks so far and the state
that they have led to, and `G` about the callbacks alone: it has to hold also after one that ends
the walk. -/
structure Preserved (plan : Plan N A β) (K : N → N → Bool → Prop) (R : Except Error Control → Prop)
    (I : List (Event N A β) → State N A β → Prop) (G : List (Event N A β) → Prop) : Prop where
  known : ∀ {past : List (Event N A β)} {s : State N A β}, I past s →
    ∀ entry ∈ s.pending, entry.id < s.outline.length
  call : ∀ {past : List (Event N A β)} {s : State N A β} {entry : Entry} {rest : List Entry}
    {e : Event N A β}, I past s → s.pending = entry :: rest → e.Takes s entry → R e.outcome →
    G past → G (past ++ [e])
  step : ∀ {past : List (Event N A β)} {s s' : State N A β} {entry : Entry} {rest : List Entry}
    {e : Event N A β}, I past s → s.pending = entry :: rest → e.Takes s entry → R e.outcome →
    Continues plan K { s with pending := rest } e (.ok s') → I (past ++ [e]) s'

/-- **What every step preserves holds along a run.** -/
theorem events_invariant {I : List (Event N A β) → State N A β → Prop}
    {G : List (Event N A β) → Prop} (hup : Upholds plan visitor K R)
    (hpreserved : Preserved plan K R I G) (limit : Nat) {past : List (Event N A β)}
    {s : State N A β} (own : σ) (hs : s.Meets K) (hG : G past) (hI : I past s) :
    G (past ++ events plan visitor limit s own) ∧
      Concludes (I (past ++ events plan visitor limit s own)) (events plan visitor limit s own)
        limit ((steps plan visitor limit s).runWith own).1 := by
  induction limit generalizing past s own with
  | zero =>
    rw [events, List.append_nil]
    refine ⟨hG, ?_⟩
    cases hp : s.pending with
    | nil =>
      rw [steps_of_nil plan visitor hp]
      exact ⟨hI, hp⟩
    | cons entry pending =>
      rw [steps.eq_def]
      simp only [hp]
      rfl
  | succ limit ih =>
    cases hp : s.pending with
    | nil =>
      rw [events_of_nil hp, steps_of_nil plan visitor hp, List.append_nil]
      exact ⟨hG, hI, hp⟩
    | cons entry pending =>
      have hid : entry.id < (State.outline { s with pending }).length :=
        hpreserved.known hI entry (hp ▸ List.mem_cons_self)
      obtain ⟨e, he, htakes, houtcome, hcontinues, hmeets⟩ :=
        step_continues hup (s := { s with pending }) hs hid own
      have htakes' : e.Takes s entry :=
        ⟨htakes.entry, htakes.new, htakes.again, htakes.outline, htakes.here⟩
      -- the callback is made whether or not the step goes on to succeed
      have hG' := hpreserved.call hI hp htakes' houtcome hG
      rw [events_of_cons hp, steps_of_cons plan visitor hp, he]
      cases hrun : (step plan visitor entry { s with pending }).runWith own with
      | mk out own₁ =>
        rw [hrun] at hcontinues hmeets
        cases out with
        | error error =>
          rw [Walk.runWith_bind_error (Walk.runWith_ofAttempt_error hrun)]
          cases hcontinues with
          | failed _ unwilling => exact ⟨hG', e, List.mem_cons_self, unwilling⟩
        | ok s₁ =>
          rw [Walk.runWith_bind_ok (Walk.runWith_ofAttempt_ok hrun)]
          obtain ⟨hall, hend⟩ := ih own₁ (hmeets s₁ rfl) hG'
            (hpreserved.step hI hp htakes' houtcome hcontinues)
          rw [List.append_assoc] at hall hend
          exact ⟨hall, hend.cons e⟩

/-! ### Logs -/

/-- A callback with a log does what it does without, and writes down what it saw first. -/
theorem State.call_logging (callback : Callback σ (Cursor N A β) (Request N A β) Control)
    (hc : s.ledger.arena[id]? = some c) (rootVars : Vars β) (phase : Phase) (own : σ)
    (log : List (Phase × Cursor N A β)) :
    (s.call rootVars id phase (callback.logging phase)).runWith (own, log) =
      (((s.call rootVars id phase callback).runWith own).1,
        ((s.call rootVars id phase callback).runWith own).2,
        log ++ [(phase, Spot.cursor ⟨id, s.readied phase c⟩ rootVars s.visited
          (s.ledger.modifyAt id fun _ => s.readied phase c))]) := by
  rw [State.runWith_call hc, State.runWith_call hc]
  simp only [Callback.logging, Program.run, Program.run_bind]
  rfl

omit [DecidableEq κ] in
/-- Reacting leaves the visitor's own state alone, whatever it is. -/
theorem State.react_own (s : State N A β) (plan : Plan N A β) (first : N) (id : Nat) (phase : Phase)
    (control : Control) : ∃ r, ∀ {τ : Type} (own : τ),
      (s.react plan first id phase control : Attempt τ (State N A β)).runWith own = (r, own) := by
  have hobey : ∃ r, ∀ {τ : Type} (own : τ),
      (s.obey id control : Attempt τ (State N A β)).runWith own = (r, own) := by
    cases control with
    | proceed | quit => exact ⟨_, fun _ => rfl⟩
    | abort =>
      simp only [State.obey]
      split <;> exact ⟨_, fun _ => rfl⟩
  cases phase with
  | enter => exact ⟨_, fun _ => rfl⟩
  | leave | backRef => exact hobey

theorem step_logging (plan : Plan N A β) (visitor : SequentialVisitor σ N A β) (s : State N A β)
    (entry : Entry) (own : σ) (log : List (Phase × Cursor N A β)) :
    (step plan visitor.logging entry s).runWith (own, log) =
      (((step plan visitor entry s).runWith own).1, ((step plan visitor entry s).runWith own).2,
        log ++ (s.event? plan visitor entry own).toList.map fun e => (e.phase, e.seen)) := by
  cases hc : s.ledger.arena[entry.id]? with
  | none =>
    -- nothing is called back, and nothing happens
    rw [State.event?, hc, Option.map_none, Option.toList_none, List.map_nil, List.append_nil]
    cases entry with
    | leave id =>
      have hcall : ∀ {τ : Type} (callback : Callback τ (Cursor N A β) (Request N A β) Control),
          s.call plan.rootVars id .leave callback = pure (.proceed, s) := by
        intro τ callback
        rw [State.call, show s.ledger.arena[id]? = none from hc]
      rw [step, step, hcall, hcall]
      rfl
    | visit id =>
      rw [step, step, show s.ledger.arena[id]? = none from hc]
      rfl
  | some c =>
    rw [State.event?, hc, Option.map_some, Option.toList_some, List.map_singleton]
    have hon : visitor.logging.on (s.phaseOf entry) =
        (visitor.on (s.phaseOf entry)).logging (s.phaseOf entry) := by
      cases s.phaseOf entry <;> rfl
    have hcall := State.call_logging (visitor.on (s.phaseOf entry)) hc plan.rootVars
      (s.phaseOf entry) own log
    rw [step_eq hc, step_eq hc, hon]
    cases hrun : (s.call plan.rootVars entry.id (s.phaseOf entry)
        (visitor.on (s.phaseOf entry))).runWith own with
    | mk out own₁ =>
      rw [hrun] at hcall
      cases out with
      | error error => rw [Attempt.runWith_bind_error hcall, Attempt.runWith_bind_error hrun]
      | ok p =>
        rw [Attempt.runWith_bind_ok hcall, Attempt.runWith_bind_ok hrun]
        obtain ⟨r, hr⟩ := p.2.react_own plan c.first entry.id (s.phaseOf entry) p.1
        rw [hr, hr]

/-- **The callbacks are what a visitor with a log writes down.** -/
theorem steps_logging (limit : Nat) (s : State N A β) (own : σ)
    (log : List (Phase × Cursor N A β)) :
    (steps plan visitor.logging limit s).runWith (own, log) =
      (((steps plan visitor limit s).runWith own).1, ((steps plan visitor limit s).runWith own).2,
        log ++ (events plan visitor limit s own).map fun e => (e.phase, e.seen)) := by
  induction limit generalizing s own log with
  | zero =>
    rw [events, List.map_nil, List.append_nil]
    cases hp : s.pending with
    | nil =>
      rw [steps_of_nil plan visitor hp, steps_of_nil plan visitor.logging hp]
      rfl
    | cons entry pending =>
      rw [steps.eq_def, steps.eq_def]
      simp only [hp]
      rfl
  | succ limit ih =>
    cases hp : s.pending with
    | nil =>
      rw [events_of_nil hp, steps_of_nil plan visitor hp, steps_of_nil plan visitor.logging hp,
        List.map_nil, List.append_nil]
      rfl
    | cons entry pending =>
      have hlogged := step_logging plan visitor { s with pending } entry own log
      rw [events_of_cons hp, steps_of_cons plan visitor hp, steps_of_cons plan visitor.logging hp,
        List.map_append, ← List.append_assoc]
      cases hrun : (step plan visitor entry { s with pending }).runWith own with
      | mk out own₁ =>
        rw [hrun] at hlogged
        cases out with
        | error error =>
          rw [Walk.runWith_bind_error (Walk.runWith_ofAttempt_error hrun),
            Walk.runWith_bind_error (Walk.runWith_ofAttempt_error hlogged), List.map_nil,
            List.append_nil]
        | ok s₁ =>
          rw [Walk.runWith_bind_ok (Walk.runWith_ofAttempt_ok hrun),
            Walk.runWith_bind_ok (Walk.runWith_ofAttempt_ok hlogged)]
          exact ih s₁ own₁ _

theorem walk_logging (plan : Plan N A β) (visitor : SequentialVisitor σ N A β) (recording : Bool)
    (limit : Nat) (roots : List N) (own : σ) :
    ((walk plan visitor.logging recording limit roots).runWith (own, [])).2.2 =
      (callbacks plan visitor recording limit roots own).map fun e => (e.phase, e.seen) := by
  rw [walk, steps_logging, List.nil_append]
  rfl

end Traversal

end Arborist
