import Arborist.Proofs.EditLog
import Arborist.Proofs.Limits
import Arborist.Proofs.Transformation

/-!
# The edit log stays in step

What requests preserve (`Ledger.InStep.turn`, `Ledger.Faithful.turn`) is preserved by callbacks, by
the discovery of children, by steps, and so by the walk of a transformation (`inStep_after`).

A `Moment` is the state of such a walk after some steps, together with all requests that were made
until then. The log is in step with the contexts at every moment, whatever nodes the visitor brings.
That each replacement carries the node of its context holds as long as no second change is mistaken:
the edit that is to be amended is looked up by the identity of a node, in a log that all contexts
and all kinds of edits share (`inStep_after_mistaken`).
-/

namespace Arborist

variable {σ N A κ : Type} {β : κ → Type}

/-! ### The requests of a program -/

namespace Program

variable {V Q S α : Type} {view : S → V} {perform : Q → Attempt S Unit}

/-- The requests that a program makes, each with the state on which it is made. -/
def asked (view : S → V) (perform : Q → Attempt S Unit) : Program V Q α → S → List (S × Q)
  | .done _, _ => []
  | .look next, s => (next (view s)).asked view perform s
  | .ask q next, s =>
    let (r, s') := (perform q).runWith s
    (s, q) :: (next r).asked view perform s'

/-- What every request that is made preserves holds at all of them, and at the end. -/
theorem run_asked {P : Q → Prop} {I : S → Prop} {ok : S → Q → Prop}
    (hperform : ∀ q s, P q → ok s q → I s → I ((perform q).runWith s).2) {p : Program V Q α}
    (hp : p.Requests P) {s : S} (hs : I s) (hok : ∀ x ∈ p.asked view perform s, ok x.1 x.2) :
    I (p.run view perform s).2 ∧ ∀ x ∈ p.asked view perform s, I x.1 := by
  induction p generalizing s with
  | done a => exact ⟨hs, nofun⟩
  | look next ih => exact ih _ (hp _) hs hok
  | ask q next ih =>
    rw [asked, List.forall_mem_cons] at hok
    obtain ⟨hend, hasked⟩ := ih _ (hp.2 _) (hperform q s hp.1 hok.1 hs) hok.2
    rw [asked, List.forall_mem_cons]
    exact ⟨hend, hs, hasked⟩

end Program

/-- A request as it was made: the context of the callback, and the ledger at that time. -/
structure Ask (N A : Type) {κ : Type} (β : κ → Type) where
  spot : Spot N A β
  ledger : Ledger N A β
  request : Request N A β

namespace Ask

variable [Identified N]

/-- The context on which the request was made. -/
def context (a : Ask N A β) : Context N A β :=
  a.spot.context a.ledger

/-- The answer to the request, and the ledger after it. -/
def outcome [DecidableEq κ] (a : Ask N A β) : Except Error Unit × Ledger N A β :=
  (a.spot.perform a.request).runWith a.ledger

/-- The request is no second change, or it is an unmistaken one. -/
def Unmistaken (a : Ask N A β) : Prop :=
  a.request.replaces = true → a.context.changed = true → a.ledger.Unmistaken a.context

/-- If the request is a second change, then it is granted, and of all edits it alters only the
replacement of its own context. -/
def AmendsOwn [DecidableEq κ] (a : Ask N A β) : Prop :=
  ∀ node, a.request = .replace node → a.context.changed = true →
    ∃ front z rest, a.ledger.log = front ++ z :: rest ∧
      z.mark = (.replace, a.ledger.arena.position a.context) ∧
      a.outcome.1 = .ok () ∧ a.outcome.2.log = front ++ z.withNode node :: rest

/-- A second change that is not mistaken amends the edit of its own context. -/
theorem Unmistaken.amendsOwn [DecidableEq κ] {a : Ask N A β} (hask : a.Unmistaken)
    (hstep : a.ledger.InStep) (hfaithful : a.ledger.Faithful) {c : Context N A β}
    (hc : a.ledger.arena[a.spot.id]? = some c) : a.AmendsOwn := by
  intro node hnode hchanged
  have hunmistaken := hask (by rw [hnode]; rfl) hchanged
  rw [show a.context = c from Spot.context_eq hc] at hchanged hunmistaken ⊢
  obtain ⟨front, z, rest, hlog, hmark, hswap⟩ :=
    hfaithful.amends hstep hc hchanged hunmistaken node
  refine ⟨front, z, rest, hlog, hmark, ?_⟩
  obtain ⟨r, c', log', hrun, hturn⟩ :=
    Spot.perform_turn hstep.recording hc hstep.tidy (q := .replace node) trivial
  rw [outcome, hnode, hrun]
  cases hturn with
  | noted idle => exact absurd ((hstep.once hc hchanged).symm.trans (idle rfl)) Bool.false_ne_true
  | replaced kept unchanged mark => exact absurd (unchanged.symm.trans hchanged) Bool.false_ne_true
  | amended kept changed swap =>
    refine ⟨rfl, ?_⟩
    rw [Ledger.log_revise]
    exact Option.some.inj (swap.symm.trans hswap)
  | lost kept changed swap => exact absurd (swap.symm.trans hswap) (by simp)
  | inserted idle => exact absurd idle (by simp [Request.replaces])

end Ask

/-! ### Callbacks -/

namespace Ledger

/-- What holds of a ledger all the time. The nodes of the contexts stay **inside** a set of nodes,
and the log is faithful if no second change is mistaken (`careful`). -/
structure Kept (inside : N → Prop) (careful : Prop) (l : Ledger N A β) : Prop where
  inStep : l.InStep
  faithful : careful → l.Faithful
  stays : ∀ {id : Nat} {c : Context N A β}, l.arena[id]? = some c → inside c.node

/-- A ledger on which a callback works has the same contexts in the same places as the one it
started from. -/
structure Kept.Since (inside : N → Prop) (careful : Prop) (l₀ l : Ledger N A β) : Prop where
  kept : l.Kept inside careful
  size : l.arena.size = l₀.arena.size
  links : Arena.SameLinks l₀.arena.size l₀.arena l.arena

namespace Kept

variable {inside : N → Prop} {careful careful' : Prop} {l₀ l : Ledger N A β} {id : Nat}
  {c c' : Context N A β}

theorem mono (h : l.Kept inside careful) (himp : careful' → careful) : l.Kept inside careful' :=
  ⟨h.inStep, fun h' => h.faithful (himp h'), h.stays⟩

theorem since (h : l.Kept inside careful) : Since inside careful l l :=
  ⟨h, rfl, fun _ _ => rfl⟩

theorem Since.exists_context (h : Since inside careful l₀ l) (hid : id < l₀.arena.size) :
    ∃ c, l.arena[id]? = some c :=
  ⟨_, Array.getElem?_eq_getElem (h.size.symm ▸ hid)⟩

variable [Identified N] {q : Request N A β} {r : Except Error Unit} {log' : List (Zipper N)}

theorem turn (h : l.Kept inside careful) (hc : l.arena[id]? = some c)
    (hturn : l.Turn c q r c' log') (hq : q.StaysIn inside)
    (hask : careful → q.replaces = true → c.changed = true → l.Unmistaken c) :
    (l.revise id c' log').Kept inside careful where
  inStep := h.inStep.turn hc hturn
  faithful hcareful := (h.faithful hcareful).turn h.inStep hc hturn (hask hcareful)
  stays hd := by
    rcases revise_cases hd with ⟨-, rfl⟩ | ⟨-, hd⟩
    · exact hturn.stays hq (h.stays hc)
    · exact h.stays hd

theorem Since.turn (h : Since inside careful l₀ l) (hc : l.arena[id]? = some c)
    (hturn : l.Turn c q r c' log') (hq : q.StaysIn inside)
    (hask : careful → q.replaces = true → c.changed = true → l.Unmistaken c) :
    Since inside careful l₀ (l.revise id c' log') where
  kept := h.kept.turn hc hturn hq hask
  size := by rw [revise, Array.size_modify, h.size]
  links j hj := (sameLinks_revise hc hturn.link_eq _ j hj).trans (h.links j hj)

theorem Since.perform [DecidableEq κ] (h : Since inside careful l₀ l) (spot : Spot N A β)
    (hid : spot.id < l₀.arena.size) (hq : q.IsRecorded ∧ q.StaysIn inside)
    (hask : careful → Ask.Unmistaken ⟨spot, l, q⟩) :
    Since inside careful l₀ ((spot.perform q).runWith l).2 := by
  obtain ⟨c, hc⟩ := h.exists_context hid
  have hstep := h.kept.inStep
  obtain ⟨r, c', log', hrun, hturn⟩ := Spot.perform_turn hstep.recording hc hstep.tidy hq.1
  rw [hrun]
  refine h.turn hc hturn hq.2 fun hcareful => ?_
  have hunmistaken := hask hcareful
  rw [Ask.Unmistaken, Ask.context, Spot.context_eq hc] at hunmistaken
  exact hunmistaken

/-- A context says something else about what is not an edit. -/
theorem Since.note (h : Since inside careful l₀ l) (hc : l.arena[id]? = some c)
    (f : Context N A β → Context N A β) (hlink : (f c).link = c.link) (hnode : (f c).node = c.node)
    (hchanged : (f c).changed = c.changed) (hdeleted : (f c).deleted = c.deleted) :
    Since inside careful l₀ (l.modifyAt id f) := by
  rw [modifyAt_eq hc h.kept.inStep.recording]
  exact h.turn hc (.noted (q := .remove) (r := .ok ()) nofun hlink hnode hchanged hdeleted) trivial
    fun _ => nofun

end Kept

end Ledger

namespace Traversal

variable [Identified N] [DecidableEq κ]

/-- The context that a pending entry takes up, if it is to be visited. -/
def Entry.visit? : Entry → Option Nat
  | .visit id => some id
  | .leave _ => none

/-- What is scheduled is to be visited, whatever the order. -/
theorem Mode.filterMap_schedule (mode : Mode) (id : Nat) (ids : List Nat) (pending : List Entry) :
    ((mode.schedule id ids pending).filterMap Entry.visit?).Perm
      (ids ++ pending.filterMap Entry.visit?) := by
  have hadded : (ids.map Entry.visit ++ [Entry.leave id]).filterMap Entry.visit? = ids := by
    rw [List.filterMap_append, List.filterMap_map]
    exact (List.append_nil _).trans (List.filterMap_some)
  cases mode with
  | depthFirst =>
    rw [schedule, List.filterMap_append, hadded]
  | breadthFirst =>
    rw [schedule, List.filterMap_append, hadded]
    exact List.perm_append_comm

namespace State

/-- The requests that a callback makes. -/
def asked (s : State N A β) (rootVars : Vars β) (id : Nat) (phase : Phase)
    (callback : Callback σ (Cursor N A β) (Request N A β) Control) (own : σ) : List (Ask N A β) :=
  match s.ledger.arena[id]? with
  | none => []
  | some c =>
    let start := { c with current := s.accumulate, next := none, phase := some phase }
    let spot : Spot N A β := ⟨id, start⟩
    let ledger := s.ledger.modifyAt id fun _ => start
    (Program.asked (spot.cursor rootVars s.visited) spot.perform (callback own) ledger).map
      fun (l, q) => ⟨spot, l, q⟩

/-- The contexts that are still to be visited. -/
def upcoming (s : State N A β) : List Nat :=
  s.pending.filterMap Entry.visit?

/-- Nothing hangs below a context. -/
def Bare (s : State N A β) (id : Nat) : Prop :=
  ∀ {j : Nat} {c : Context N A β} {l : Link}, s.ledger.arena[j]? = some c → c.link = some l →
    l.parent ≠ id

/-- What holds after every step. -/
structure Kept (inside : N → Prop) (careful : Prop) (s : State N A β) : Prop where
  ledger : s.ledger.Kept inside careful
  /-- Each context is visited once. -/
  once : s.upcoming.Nodup
  known : ∀ id ∈ s.upcoming, id < s.ledger.arena.size
  /-- Children are discovered when their parent is visited. -/
  bare : ∀ id ∈ s.upcoming, s.Bare id

/-- What a callback leaves as it is. -/
structure Beside (s s' : State N A β) : Prop where
  pending : s'.pending = s.pending
  size : s'.ledger.arena.size = s.ledger.arena.size
  links : Arena.SameLinks s.ledger.arena.size s.ledger.arena s'.ledger.arena

omit [DecidableEq κ] in
theorem Beside.bare {s s' : State N A β} (h : s.Beside s') {id : Nat} (hbare : s.Bare id) :
    s'.Bare id := by
  intro j c l hc hlink
  have hj := Arena.lt_size_of_getElem? hc
  rw [h.size] at hj
  have hsame := h.links j hj
  rw [hc, Array.getElem?_eq_getElem hj, Option.map_some, Option.map_some] at hsame
  exact hbare (Array.getElem?_eq_getElem hj) ((Option.some.inj hsame).symm.trans hlink)

variable {inside : N → Prop} {careful : Prop} {s s' : State N A β} {rootVars : Vars β} {id : Nat}
  {phase : Phase} {callback : Callback σ (Cursor N A β) (Request N A β) Control} {own own' : σ}
  {control : Control}

omit [DecidableEq κ] in
theorem Kept.mono {careful' : Prop} (h : s.Kept inside careful) (himp : careful' → careful) :
    s.Kept inside careful' :=
  { h with ledger := h.ledger.mono himp }

omit [DecidableEq κ] in
/-- Less is pending. -/
theorem Kept.sublist (h : s.Kept inside careful) (hledger : s'.ledger = s.ledger)
    (hpending : s'.pending.Sublist s.pending) : s'.Kept inside careful := by
  have hupcoming : s'.upcoming.Sublist s.upcoming := hpending.filterMap _
  refine ⟨hledger ▸ h.ledger, hupcoming.nodup h.once, fun id hid => ?_, fun id hid => ?_⟩
  · rw [hledger]
    exact h.known id (hupcoming.subset hid)
  · rw [Bare, hledger]
    exact h.bare id (hupcoming.subset hid)

omit [DecidableEq κ] in
/-- A ledger on which a callback worked takes the place of the one before. -/
theorem Kept.beside (h : s.Kept inside careful) (hledger : s'.ledger.Kept inside careful)
    (hbeside : s.Beside s') : s'.Kept inside careful := by
  have hupcoming : s'.upcoming = s.upcoming := by rw [upcoming, upcoming, hbeside.pending]
  refine ⟨hledger, hupcoming ▸ h.once, ?_, ?_⟩
  · rw [hupcoming, hbeside.size]
    exact h.known
  · rw [hupcoming]
    exact fun j hj => hbeside.bare (h.bare j hj)

/-- **What callbacks preserve.** -/
theorem Kept.call (h : s.Kept inside careful)
    (hrequests : (callback own).Requests fun q => q.IsRecorded ∧ q.StaysIn inside)
    (hasked : careful → ∀ a ∈ s.asked rootVars id phase callback own, a.Unmistaken)
    (hcall : (s.call rootVars id phase callback).runWith own = (.ok (control, s'), own')) :
    s'.Kept inside careful ∧ s.Beside s' ∧
      ∀ a ∈ s.asked rootVars id phase callback own,
        a.ledger.Kept inside careful ∧ ∃ c, a.ledger.arena[a.spot.id]? = some c := by
  cases hc : s.ledger.arena[id]? with
  | none =>
    rw [State.call, hc] at hcall
    rw [State.asked, hc]
    cases hcall
    exact ⟨h, ⟨rfl, rfl, fun _ _ => rfl⟩, fun a ha => absurd ha List.not_mem_nil⟩
  | some c =>
    have hid := Arena.lt_size_of_getElem? hc
    let start := { c with current := s.accumulate, next := none, phase := some phase }
    let spot : Spot N A β := ⟨id, start⟩
    have hasks : s.asked rootVars id phase callback own =
        (Program.asked (spot.cursor rootVars s.visited) spot.perform (callback own)
          (s.ledger.modifyAt id fun _ => start)).map fun (l, q) => ⟨spot, l, q⟩ := by
      rw [State.asked, hc]
    rw [hasks] at hasked ⊢
    obtain ⟨hend, hkept⟩ := Program.run_asked (fun q l hq hask hl => hl.perform spot hid hq hask)
      hrequests (h.ledger.since.note hc (fun _ => start) rfl rfl rfl rfl)
      fun x hx hcareful => hasked hcareful _ (List.mem_map_of_mem hx)
    -- what the callback says and how its own state is left does not matter here
    have hresult : s'.pending = s.pending ∧
        s'.ledger = (Program.run (spot.cursor rootVars s.visited) spot.perform (callback own)
          (s.ledger.modifyAt id fun _ => start)).2 := by
      rw [State.eq_of_call_ok hc hcall]
      exact ⟨rfl, rfl⟩
    rw [← hresult.2] at hend
    have hbeside : s.Beside s' := ⟨hresult.1, hend.size, hend.links⟩
    refine ⟨h.beside hend.kept hbeside, hbeside, fun a ha => ?_⟩
    obtain ⟨x, hx, rfl⟩ := List.mem_map.mp ha
    exact ⟨(hkept x hx).kept, (hkept x hx).exists_context hid⟩

/-! ### Steps -/

omit [Identified N] [DecidableEq κ] in
/-- Children hang in different places below their parent. -/
theorem nodup_links_found {plan : Plan N A β} {c : Context N A β}
    (hroles : (plan.below c).roles.Nodup) (id : Nat) (accumulate : A) :
    ((plan.found c id accumulate).map Context.link).Nodup := by
  have hlinks : (plan.found c id accumulate).map Context.link =
      ((plan.below c).located.map Prod.fst).map fun location => some ⟨id, location⟩ := by
    rw [Plan.found, List.map_map, List.map_map]
    rfl
  rw [hlinks]
  refine (Children.nodup_located hroles).map fun location location' heq => ?_
  exact (Link.mk.inj (Option.some.inj heq)).2

omit [DecidableEq κ] in
/-- Children that are discovered below a context, with a number of their own each. -/
theorem Kept.discover (h : s.Kept inside careful) (found : List (Context N A β))
    (pending : List Entry) (hid : id < s.ledger.arena.size) (hnot : id ∉ s.upcoming)
    (hbare : s.Bare id)
    (hfound : ∀ d ∈ found, (∃ location, d.link = some ⟨id, location⟩) ∧ d.changed = false ∧
      d.deleted = false)
    (hinside : ∀ d ∈ found, inside d.node) (hnodup : (found.map Context.link).Nodup)
    (hpending : (pending.filterMap Entry.visit?).Perm
      (List.range' s.ledger.arena.size found.length ++ s.upcoming)) :
    Kept inside careful
      { s with
        ledger := { s.ledger with arena := s.ledger.arena ++ found.toArray }
        pending } where
  ledger :=
    { inStep := h.ledger.inStep.discover hid (fun d hd => (hfound d hd).1) hnodup hbare
        fun d hd => (hfound d hd).2
      faithful := fun hcareful => (h.ledger.faithful hcareful).discover h.ledger.inStep.tidy
        fun d hd => (hfound d hd).2.1
      stays := fun hd => by
        rcases Arena.append_cases hd with hold | ⟨-, hnew⟩
        · exact h.ledger.stays hold
        · exact hinside _ (List.mem_of_getElem? hnew) }
  once := by
    refine hpending.nodup_iff.mpr (List.nodup_append.mpr ⟨List.nodup_range', h.once, ?_⟩)
    rintro i hi j hj rfl
    have hold := h.known i hj
    rw [List.mem_range'_1] at hi
    omega
  known j hj := by
    have hsize : (s.ledger.arena ++ found.toArray).size = s.ledger.arena.size + found.length := by
      simp
    show j < (s.ledger.arena ++ found.toArray).size
    rcases List.mem_append.mp (hpending.mem_iff.mp hj) with hj | hj
    · rw [List.mem_range'_1] at hj
      omega
    · have hold := h.known j hj
      omega
  -- what is pending has not been expanded yet, be it an old context or a new one
  bare j hj := by
    intro i d l hd hlink
    rcases Arena.append_cases hd with hold | ⟨-, hnew⟩
    · rcases List.mem_append.mp (hpending.mem_iff.mp hj) with hj | hj
      · -- links lead to earlier contexts
        have hbefore := h.ledger.inStep.tidy.before hold hlink
        have hi := Arena.lt_size_of_getElem? hold
        rw [List.mem_range'_1] at hj
        omega
      · exact h.bare j hj hold hlink
    · obtain ⟨location, hlocation⟩ := (hfound d (List.mem_of_getElem? hnew)).1
      obtain rfl := Option.some.inj (hlocation.symm.trans hlink)
      intro heq
      rw [← show id = j from heq] at hj
      rcases List.mem_append.mp (hpending.mem_iff.mp hj) with hj | hj
      · rw [List.mem_range'_1] at hj
        omega
      · exact hnot hj

omit [DecidableEq κ] in
/-- **What the expansion of a node preserves.** -/
theorem Kept.expand {plan : Plan N A β}
    (hroles : ∀ node, inside node → (plan.children node).roles.Nodup)
    (hchildren : ∀ node, inside node → ∀ child ∈ (plan.children node).flatten, inside child)
    (h : s.Kept inside careful) (hid : id < s.ledger.arena.size) (hnot : id ∉ s.upcoming)
    (hbare : s.Bare id) : (s.expand plan id).Kept inside careful := by
  obtain ⟨c, hc⟩ : ∃ c, s.ledger.arena[id]? = some c := ⟨_, Array.getElem?_eq_getElem hid⟩
  have hgood : (plan.below c).roles.Nodup ∧ ∀ child ∈ (plan.below c).flatten, inside child := by
    rw [Plan.below]
    split
    · exact ⟨List.nodup_nil, fun _ hchild => absurd hchild List.not_mem_nil⟩
    · exact ⟨hroles _ (h.ledger.stays hc), hchildren _ (h.ledger.stays hc)⟩
  rw [State.expand_eq hc]
  have hkept := h.discover (plan.found c id s.accumulate)
    (plan.mode.schedule id ((plan.below c).number s.ledger.arena.size).flatten s.pending)
    hid hnot hbare ?_ ?_ (nodup_links_found hgood.1 id s.accumulate) ?_
  · have hnoted := hkept.ledger.since.note ((Array.getElem?_append_left hid).trans hc)
      (fun c' => { c' with children := some ((plan.below c).number s.ledger.arena.size) })
      rfl rfl rfl rfl
    exact hkept.beside hnoted.kept ⟨rfl, hnoted.size, hnoted.links⟩
  · intro d hd
    obtain ⟨p, -, rfl⟩ := Plan.exists_of_mem_found hd
    exact ⟨⟨p.1, rfl⟩, rfl, rfl⟩
  · intro d hd
    obtain ⟨p, hp, rfl⟩ := Plan.exists_of_mem_found hd
    exact hgood.2 _ (mem_flatten_of_located hp)
  · rw [Plan.length_found, ← flatten_number]
    exact Mode.filterMap_schedule _ _ _ _

end State

/-- The context that an entry is about. -/
def Entry.id : Entry → Nat
  | .visit id | .leave id => id

/-- The callback that an entry leads to. -/
def State.phaseOf (s : State N A β) : Entry → Phase
  | .leave _ => .leave
  | .visit id =>
    match s.ledger.arena[id]? with
    | none => .enter
    | some c => if s.visited.contains (identity c.first) then .backRef else .enter

variable {plan : Plan N A β} {visitor : SequentialVisitor σ N A β} {entry : Entry}
  {s s' : State N A β} {own own' : σ} {inside : N → Prop} {careful : Prop}

/-- **What a step does**: it calls back, and then it goes on, ends the walk, or expands a node. -/
theorem step_cases (h : (step plan visitor entry s).runWith own = (.ok s', own')) :
    ∃ control s₁, (s.call plan.rootVars entry.id (s.phaseOf entry)
        (visitor.on (s.phaseOf entry))).runWith own = (.ok (control, s₁), own') ∧
      (s'.ledger = s₁.ledger ∧ (s'.pending = s₁.pending ∨ s'.pending = []) ∨
        ∃ visited, entry = .visit entry.id ∧
          s' = State.expand { s₁ with visited } plan entry.id) := by
  cases entry with
  | leave id =>
    obtain ⟨⟨control, s₁⟩, own₁, hcall, hobey⟩ := Attempt.exists_of_bind_ok h
    obtain ⟨rfl, rfl | rfl⟩ := obey_cases hobey
    · exact ⟨control, s', hcall, .inl ⟨rfl, .inl rfl⟩⟩
    · exact ⟨control, s₁, hcall, .inl ⟨rfl, .inr rfl⟩⟩
  | visit id =>
    rw [State.phaseOf]
    cases hc : s.ledger.arena[id]? with
    | none =>
      rw [step_unknown hc] at h
      cases h
      refine ⟨.proceed, s, ?_, .inl ⟨rfl, .inl rfl⟩⟩
      rw [Entry.id, State.call, hc]
      rfl
    | some c =>
      dsimp only
      cases hvisited : s.visited.contains (identity c.first) with
      | true =>
        rw [step_again hc hvisited] at h
        obtain ⟨⟨control, s₁⟩, own₁, hcall, hobey⟩ := Attempt.exists_of_bind_ok h
        obtain ⟨rfl, rfl | rfl⟩ := obey_cases hobey
        · exact ⟨control, s', hcall, .inl ⟨rfl, .inl rfl⟩⟩
        · exact ⟨control, s₁, hcall, .inl ⟨rfl, .inr rfl⟩⟩
      | false =>
        rw [step_first hc hvisited] at h
        obtain ⟨⟨control, s₁⟩, own₁, hcall, hrest⟩ := Attempt.exists_of_bind_ok h
        cases hrest
        cases control with
        | proceed => exact ⟨.proceed, s₁, hcall, .inr ⟨_, rfl, rfl⟩⟩
        | quit => exact ⟨.quit, s₁, hcall, .inl ⟨rfl, .inr rfl⟩⟩
        | abort => exact ⟨.abort, s₁, hcall, .inl ⟨rfl, .inl rfl⟩⟩

/-- The requests that are made while an entry is dealt with. -/
def stepAsked (plan : Plan N A β) (visitor : SequentialVisitor σ N A β) (entry : Entry)
    (s : State N A β) (own : σ) : List (Ask N A β) :=
  s.asked plan.rootVars entry.id (s.phaseOf entry) (visitor.on (s.phaseOf entry)) own

/-- **What steps preserve.** -/
theorem State.Kept.step (hroles : ∀ node, inside node → (plan.children node).roles.Nodup)
    (hchildren : ∀ node, inside node → ∀ child ∈ (plan.children node).flatten, inside child)
    (hvisitor : visitor.Requests fun q => q.IsRecorded ∧ q.StaysIn inside) {pending : List Entry}
    (h : s.Kept inside careful) (hpending : s.pending = entry :: pending)
    (hasked : careful → ∀ a ∈ stepAsked plan visitor entry { s with pending } own, a.Unmistaken)
    (hstep : (Traversal.step plan visitor entry { s with pending }).runWith own = (.ok s', own')) :
    s'.Kept inside careful ∧ ∀ a ∈ stepAsked plan visitor entry { s with pending } own,
      a.ledger.Kept inside careful ∧ ∃ c, a.ledger.arena[a.spot.id]? = some c := by
  obtain ⟨control, s₁, hcall, hrest⟩ := step_cases hstep
  have hpopped : State.Kept inside careful { s with pending } :=
    h.sublist rfl (hpending ▸ List.sublist_cons_self entry pending)
  obtain ⟨hkept, hbeside, hasks⟩ := hpopped.call (hvisitor _ own) hasked hcall
  refine ⟨?_, hasks⟩
  rcases hrest with ⟨hledger, hsame | hnone⟩ | ⟨visited, hentry, rfl⟩
  · exact hkept.sublist hledger (hsame ▸ List.Sublist.refl _)
  · exact hkept.sublist hledger (hnone ▸ List.nil_sublist _)
  · -- the context was pending, so nothing hangs below it, and it is not pending again
    have hupcoming : s.upcoming = entry.id :: State.upcoming { s with pending } := by
      rw [State.upcoming, hpending, hentry]
      rfl
    have honce := h.once
    have hmem : entry.id ∈ s.upcoming := hupcoming ▸ List.mem_cons_self
    rw [hupcoming, List.nodup_cons] at honce
    have hvisit : State.Kept inside careful { s₁ with visited } :=
      hkept.sublist rfl (List.Sublist.refl _)
    refine hvisit.expand hroles hchildren ?_ ?_ (hbeside.bare (h.bare _ hmem))
    · show entry.id < s₁.ledger.arena.size
      rw [hbeside.size]
      exact h.known _ hmem
    · show entry.id ∉ s₁.pending.filterMap Entry.visit?
      rw [hbeside.pending]
      exact honce.1

omit [DecidableEq κ] in
/-- A walk starts with one context and an empty log. -/
theorem start_kept (plan : Plan N A β) {root : N} (hroot : inside root) (careful : Prop) :
    (start plan true [root]).Kept inside careful := by
  have hcontext : ∀ {id : Nat} {c : Context N A β},
      (start plan true [root]).ledger.arena[id]? = some c →
      id = 0 ∧ c = Context.discover root none none plan.initial := by
    intro id c hc
    cases id with
    | zero => exact ⟨rfl, (Option.some.inj hc).symm⟩
    | succ id => simp [start] at hc
  have hstep : (start plan true [root]).ledger.InStep := by
    refine ⟨⟨fun hc hlink => ?_, fun hc hc' _ => ?_⟩, rfl, fun hc hchanged => ?_,
      fun {_ _ edit} hc _ => ?_, fun _ hz => absurd hz List.not_mem_nil⟩
    · cases (hcontext hc).2
      cases hlink
    · rw [(hcontext hc).1, (hcontext hc').1]
    · cases (hcontext hc).2
      rfl
    · cases (hcontext hc).2
      cases edit <;> rfl
  refine ⟨⟨hstep, fun _ id c hc hchanged => ?_, fun hc => ?_⟩, List.nodup_singleton 0,
    fun id hid => ?_, fun id _ => ?_⟩
  · cases (hcontext hc).2
    cases hchanged
  · rw [(hcontext hc).2]
    exact hroot
  · rw [List.mem_singleton.mp hid]
    exact Nat.one_pos
  · intro j c l hc hlink
    cases (hcontext hc).2
    cases hlink

/-! ### Moments -/

/-- A **moment** of a walk that records: the state it has come to, the visitor's own state, and all
requests that were made so far. -/
structure Moment (σ N A : Type) {κ : Type} (β : κ → Type) [Identified N] where
  state : State N A β
  own : σ
  asked : List (Ask N A β)

/-- The moment after the next step, or none if the step fails. Nothing happens any more when nothing
is pending. -/
def Moment.next (plan : Plan N A β) (visitor : SequentialVisitor σ N A β) (m : Moment σ N A β) :
    Option (Moment σ N A β) :=
  match m.state.pending with
  | [] => some m
  | entry :: pending =>
    let s := { m.state with pending }
    match (step plan visitor entry s).runWith m.own with
    | (.ok s', own) => some ⟨s', own, m.asked ++ stepAsked plan visitor entry s m.own⟩
    | (.error _, _) => none

/-- The moment after the given number of steps. -/
def momentAfter (plan : Plan N A β) (visitor : SequentialVisitor σ N A β) (root : N) (own : σ) :
    Nat → Option (Moment σ N A β)
  | 0 => some ⟨start plan true [root], own, []⟩
  | k + 1 => (momentAfter plan visitor root own k).bind (Moment.next plan visitor)

/-- The rest of a walk that ends, from a moment on. -/
theorem exists_momentAfter_of_steps {root : N} {limit k : Nat} {m : Moment σ N A β}
    (hm : momentAfter plan visitor root own k = some m)
    (h : (steps plan visitor limit m.state).runWith m.own = (.ok s', own')) :
    ∃ k m, momentAfter plan visitor root own k = some m ∧ m.state = s' ∧ m.own = own' := by
  induction limit generalizing k m with
  | zero =>
    rw [steps.eq_def] at h
    dsimp only at h
    split at h
    · cases h
      exact ⟨k, m, hm, rfl, rfl⟩
    · cases h
    · contradiction
  | succ limit ih =>
    cases hpending : m.state.pending with
    | nil =>
      rw [steps_of_nil plan visitor hpending] at h
      cases h
      exact ⟨k, m, hm, rfl, rfl⟩
    | cons entry pending =>
      rw [steps_of_cons plan visitor hpending] at h
      cases hstep : (step plan visitor entry { m.state with pending }).runWith m.own with
      | mk r own₁ =>
        cases r with
        | error e =>
          rw [Walk.runWith_bind_error (Walk.runWith_ofAttempt_error hstep)] at h
          cases h
        | ok s₁ =>
          rw [Walk.runWith_bind_ok (Walk.runWith_ofAttempt_ok hstep)] at h
          have hnext : m.next plan visitor =
              some ⟨s₁, own₁, m.asked ++ stepAsked plan visitor entry
                { m.state with pending } m.own⟩ := by
            rw [Moment.next, hpending]
            dsimp only
            rw [hstep]
          exact ih (k := k + 1) (by rw [momentAfter, hm, Option.bind_some, hnext]) h

/-- Every walk that ends comes to a moment. -/
theorem exists_momentAfter_of_walk {root : N} {limit : Nat}
    (h : (walk plan visitor true limit [root]).runWith own = (.ok s', own')) :
    ∃ k m, momentAfter plan visitor root own k = some m ∧ m.state = s' ∧ m.own = own' :=
  exists_momentAfter_of_steps (k := 0) rfl h

/-- What holds at every moment, if no second change is mistaken until then. -/
structure Moment.Kept (inside : N → Prop) (m : Moment σ N A β) : Prop where
  state : m.state.Kept inside (∀ a ∈ m.asked, a.Unmistaken)
  asked : ∀ a ∈ m.asked, a.ledger.Kept inside (∀ a ∈ m.asked, a.Unmistaken) ∧
    ∃ c, a.ledger.arena[a.spot.id]? = some c

section Runs

variable (hroles : ∀ node, inside node → (plan.children node).roles.Nodup)
  (hchildren : ∀ node, inside node → ∀ child ∈ (plan.children node).flatten, inside child)
  (hvisitor : visitor.Requests fun q => q.IsRecorded ∧ q.StaysIn inside)

include hroles hchildren hvisitor

theorem Moment.Kept.next {m m' : Moment σ N A β} (h : m.Kept inside)
    (hnext : m.next plan visitor = some m') : m'.Kept inside := by
  rw [Moment.next] at hnext
  split at hnext
  · cases hnext
    exact h
  · next entry pending hpending =>
    dsimp only at hnext
    split at hnext
    · next s' own' hstep =>
      cases hnext
      -- if nothing is mistaken until now, then nothing was before
      let asked := m.asked ++ stepAsked plan visitor entry { m.state with pending } m.own
      have hearlier : (∀ a ∈ asked, a.Unmistaken) → ∀ a ∈ m.asked, a.Unmistaken :=
        fun hall a ha => hall a (List.mem_append_left _ ha)
      obtain ⟨hstate, hnew⟩ := (h.state.mono hearlier).step hroles hchildren hvisitor hpending
        (fun hall a ha => hall a (List.mem_append_right _ ha)) hstep
      refine ⟨hstate, fun a ha => ?_⟩
      rcases List.mem_append.mp ha with ha | ha
      · exact ⟨(h.asked a ha).1.mono hearlier, (h.asked a ha).2⟩
      · exact hnew a ha
    · cases hnext

/-- **What a walk preserves**, by induction on its steps. -/
theorem momentAfter_kept {root : N} (hroot : inside root) {k : Nat} {m : Moment σ N A β}
    (hm : momentAfter plan visitor root own k = some m) : m.Kept inside := by
  induction k generalizing m with
  | zero =>
    cases hm
    exact ⟨start_kept plan hroot _, fun a ha => absurd ha List.not_mem_nil⟩
  | succ k ih =>
    obtain ⟨m₀, hm₀, hnext⟩ := Option.bind_eq_some_iff.mp hm
    exact (ih hm₀).next hroles hchildren hvisitor hnext

/-- **The edit log stays in step with the contexts.** After every step of a walk that records, and
whenever a request is made, the log holds one replacement for each changed context, one deletion for
each deleted one, and no others. If no second change is mistaken, then each replacement also carries
the node of its context, and a second change alters the replacement of its own context and no other
edit. A walk that ends does so at one of these moments. -/
theorem inStep_after {root : N} (hroot : inside root) (own : σ) :
    (∀ (k : Nat) (m : Moment σ N A β), momentAfter plan visitor root own k = some m →
      m.state.ledger.InStep ∧ (∀ a ∈ m.asked, a.ledger.InStep) ∧
        ((∀ a ∈ m.asked, a.Unmistaken) →
          m.state.ledger.Faithful ∧ ∀ a ∈ m.asked, a.ledger.Faithful ∧ a.AmendsOwn)) ∧
      ∀ (limit : Nat) (s' : State N A β) (own' : σ),
        (walk plan visitor true limit [root]).runWith own = (.ok s', own') →
          ∃ k m, momentAfter plan visitor root own k = some m ∧ m.state = s' ∧ m.own = own' := by
  refine ⟨fun k m hm => ?_, fun _ _ _ => exists_momentAfter_of_walk⟩
  have hkept := momentAfter_kept hroles hchildren hvisitor hroot hm
  refine ⟨hkept.state.ledger.inStep, fun a ha => (hkept.asked a ha).1.inStep, fun hcareful =>
    ⟨hkept.state.ledger.faithful hcareful, fun a ha => ?_⟩⟩
  obtain ⟨hledger, c, hc⟩ := hkept.asked a ha
  have hfaithful := hledger.faithful hcareful
  exact ⟨hfaithful, (hcareful a ha).amendsOwn hledger.inStep hfaithful hc⟩

end Runs

/-! ### Second changes on tables -/

section Tables

open Arborist.Graph

instance (l : Ledger N A β) (c : Context N A β) : Decidable (l.Unmistaken c) :=
  inferInstanceAs (Decidable (∀ y ∈ _, _))

instance (a : Ask N A β) : Decidable a.Unmistaken :=
  inferInstanceAs (Decidable (_ → _ → _))

/-- The nodes that are listed in tables. -/
def Listed (node : Node) : Prop :=
  ∃ name, node = .listed name

theorem roles_nodup_of_listed {t : Table} (h : ∀ e ∈ t.entries, e.2.roles.Nodup) {node : Node}
    (hnode : Listed node) : (t.children node).roles.Nodup := by
  obtain ⟨name, rfl⟩ := hnode
  rw [Table.children, Children.roles_map]
  cases hlookup : t.entries.lookup name with
  | none => exact List.nodup_nil
  | some children =>
    obtain ⟨before, after, hentries, -⟩ := List.lookup_eq_some_iff.mp hlookup
    exact h (name, children) (hentries ▸ List.mem_append_right _ List.mem_cons_self)

theorem listed_of_mem_children {t : Table} {node child : Node} (hnode : Listed node)
    (hchild : child ∈ (t.children node).flatten) : Listed child := by
  obtain ⟨name, rfl⟩ := hnode
  obtain ⟨g, hg, hchild⟩ := List.mem_flatMap.mp hchild
  obtain ⟨g', -, rfl⟩ := List.mem_map.mp hg
  obtain ⟨n, -, rfl⟩ := List.mem_map.mp hchild
  exact ⟨n, rfl⟩

/-- The visitor whose deeds on entering go by the name of the node. -/
def onEntering (enter : String → Deed) : TransformVisitor Nat Node (fun _ : Unit => Nat) :=
  (byName enter fun _ => {}).comap Cursor.sight

theorem onEntering_requests {P : Request Node Unit (fun _ : Unit => Nat) → Prop}
    {enter : String → Deed}
    (h : ∀ name, ∀ q ∈ (enter name).requests, P q) : (onEntering enter).Requests P :=
  Visitor.Requests.comap (byName_requests h fun _ _ hq => absurd hq List.not_mem_nil) Cursor.sight

/-- One node is changed twice, and then the first of its two nodes is used for two other edits. -/
def reuseEnter : String → Deed
  | "a" =>
    { requests := [.replace (.listed "n"), .replace (.listed "m"), .insertBefore (.listed "n")] }
  | "b" => { requests := [.replace (.listed "n")] }
  | _ => {}

theorem reuse_recorded :
    (onEntering reuseEnter).Requests fun q => q.IsRecorded ∧ q.StaysIn Listed := by
  refine onEntering_requests fun name => ?_
  unfold reuseEnter
  split <;> simp [Request.IsRecorded, Request.StaysIn, Listed]

theorem pair_roles {node : Node} (hnode : Listed node) : (pairTable.children node).roles.Nodup :=
  roles_nodup_of_listed (by decide) hnode

/-- At the end of a walk in which nodes are used again, everything is in step. -/
theorem inStep_after_reuse :
    ∃ m, momentAfter (editPlan (pairTable.adapter : Adapter Nat Node) .empty)
        (onEntering reuseEnter) (.listed "root") 0 6 = some m ∧
      m.state.pending = [] ∧ m.state.ledger.log.length = 3 ∧
      (∃ a ∈ m.asked, a.request.replaces = true ∧ a.context.changed = true) ∧
      (∀ a ∈ m.asked, a.Unmistaken) ∧
      m.state.ledger.InStep ∧ m.state.ledger.Faithful ∧ ∀ a ∈ m.asked, a.AmendsOwn := by
  have hrun : (momentAfter (editPlan (pairTable.adapter : Adapter Nat Node) .empty)
      (onEntering reuseEnter) (.listed "root") 0 6).any (fun m =>
        decide (m.state.pending = [] ∧ m.state.ledger.log.length = 3 ∧
        (∃ a ∈ m.asked, a.request.replaces = true ∧ a.context.changed = true) ∧
        ∀ a ∈ m.asked, a.Unmistaken)) = true := by
    decide +kernel
  obtain ⟨m, hm, hchecked⟩ := (Option.any_eq_true _ _).mp hrun
  obtain ⟨hpending, hlength, hsecond, hcareful⟩ := of_decide_eq_true hchecked
  obtain ⟨hstep, -, hfaithful⟩ := (inStep_after (fun _ => pair_roles)
    (fun _ hnode _ => listed_of_mem_children hnode) reuse_recorded ⟨"root", rfl⟩ 0).1 6 m hm
  exact ⟨m, hm, hpending, hlength, hsecond, hcareful, hstep, (hfaithful hcareful).1,
    fun a ha => ((hfaithful hcareful).2 a ha).2⟩

/-- A node is put in front of another one, then takes its place, and then gives way to a third. -/
def mistakenEnter : String → Deed
  | "a" =>
    { requests := [.insertBefore (.listed "n"), .replace (.listed "n"), .replace (.listed "m")] }
  | _ => {}

theorem mistaken_recorded :
    (onEntering mistakenEnter).Requests fun q => q.IsRecorded ∧ q.StaysIn Listed := by
  refine onEntering_requests fun name => ?_
  unfold mistakenEnter
  split <;> simp [Request.IsRecorded, Request.StaysIn, Listed]

/-- **A second change may amend the wrong edit**: with one node in two edits it is the insertion
that is amended, and the replacement goes on carrying a node that its context has no longer. -/
theorem inStep_after_mistaken :
    (onEntering mistakenEnter).Requests (fun q => q.IsRecorded ∧ q.StaysIn Listed) ∧
      ∃ m, momentAfter (editPlan (pairTable.adapter : Adapter Nat Node) .empty)
          (onEntering mistakenEnter) (.listed "root") 0 2 = some m ∧
        ¬m.state.ledger.Faithful ∧
        ∃ a ∈ m.asked, a.request.replaces = true ∧ a.context.changed = true ∧
          a.outcome.1.toBool = true ∧
          (a.outcome.2.log.filter (·.edit.inserts)).map (identity ·.node) ≠
            (a.ledger.log.filter (·.edit.inserts)).map (identity ·.node) := by
  have hrun : (momentAfter (editPlan (pairTable.adapter : Adapter Nat Node) .empty)
      (onEntering mistakenEnter) (.listed "root") 0 2).any (fun m =>
        (m.state.ledger.arena[1]?).any (fun c => decide (c.changed = true ∧
          ∀ z ∈ m.state.ledger.log, z.mark = (.replace, m.state.ledger.arena.position c) →
            identity z.node ≠ identity c.node)) &&
        decide (∃ a ∈ m.asked, a.request.replaces = true ∧ a.context.changed = true ∧
          a.outcome.1.toBool = true ∧
          (a.outcome.2.log.filter (·.edit.inserts)).map (identity ·.node) ≠
            (a.ledger.log.filter (·.edit.inserts)).map (identity ·.node))) = true := by
    decide +kernel
  obtain ⟨m, hm, hchecked⟩ := (Option.any_eq_true _ _).mp hrun
  obtain ⟨hcontext, hsecond⟩ := Bool.and_eq_true_iff.mp hchecked
  refine ⟨mistaken_recorded, m, hm, fun hfaithful => ?_, of_decide_eq_true hsecond⟩
  obtain ⟨c, hc, hother⟩ := (Option.any_eq_true _ _).mp hcontext
  obtain ⟨hchanged, hnodes⟩ := of_decide_eq_true hother
  obtain ⟨z, hz, hmark, hnode⟩ := hfaithful 1 c hc hchanged
  exact hnodes z hz hmark (congrArg identity hnode)

end Tables

end Traversal

end Arborist
