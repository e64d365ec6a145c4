import Arborist.Proofs.UpwardView
import Arborist.Proofs.Refusals

/-!
# Well-formed arenas

The contexts of a walk refer to each other by their places, and nothing in their types says that
there is a context at such a place, or that the way up comes to an end. Both hold throughout every
walk, in either order, on every graph and for every visitor (`walk_wellFormed`).

* An arena is `Arena.Tied` if contexts hang below earlier ones, each with a parent and a location or
  with neither, and the children that are noted on a context hang below it where they are noted.
  Requests move nothing (`Request.Alters.stays`), so they keep it tied (`Tied.of_same`). Contexts are
  added in two places only: the roots, without parent and location, at the start (`Sturdy.start`), and
  children, with both, when a node is expanded, where they are tied on both ends (`Tied.append`,
  `Tied.adopt`).
* `Arena.Ascends` is the way up as a loop takes it, from one context to the next with no bound. In a
  tied arena there is such a way from every context, and it is no longer than the place of the
  context (`Tied.ascends`). So a walk on a cyclic graph looks up in finitely many steps.
* The entries are those of a `Running` walk, which visits and leaves a context at most once.
-/

namespace Arborist

variable {σ N A κ : Type} {β : κ → Type}

/-! ### Numbered children -/

/-- Children that are numbered stay where they are. -/
theorem Children.located_number (c : Children N) (n : Nat) :
    (c.number n).located = c.located.mapIdx fun i p => (p.1, n + i) := by
  obtain ⟨groups⟩ := c
  simp only [number, located]
  induction groups generalizing n with
  | nil => rfl
  | cons g groups ih =>
    obtain ⟨role, list⟩ := g
    rw [numberGroups, List.flatMap_cons, List.flatMap_cons, ih, List.mapIdx_append]
    refine congrArg₂ _ ?_ ?_
    · exact List.ext_getElem (by simp) (by simp)
    · exact List.mapIdx_eq_mapIdx_iff.mpr fun i _ =>
        congrArg (Prod.mk _) (by simp only [List.length_mapIdx]; omega)

/-! ### Parents and locations -/

namespace Context

variable {c c' : Context N A β} {id : Nat} {location : Location}

/-- A context with a parent and a location has the link of both. -/
theorem link_of_parent (hparent : c.parent = some id) (hlocation : c.location = some location) :
    c.link = some ⟨id, location⟩ := by
  rw [link, hparent, hlocation]

theorem link_of_root (hparent : c.parent = none) : c.link = none := by
  rw [link, hparent]

/-- A context **stays** where it hangs: a parent and a location as they were. -/
structure Stays (c c' : Context N A β) : Prop where
  parent : c'.parent = c.parent
  location : c'.location = c.location

end Context

namespace Arena

/-! ### The way up -/

/-- The **way up** from a context: every parent is found, with the location below it, and the last
context has neither. -/
inductive Ascends (arena : Arena N A β) :
    Context N A β → List (Location × Context N A β) → Prop where
  | root {c : Context N A β} (parent : c.parent = none) (location : c.location = none) :
      Ascends arena c []
  | up {c above : Context N A β} {id : Nat} {l : Location}
      {rest : List (Location × Context N A β)} (parent : c.parent = some id)
      (location : c.location = some l) (found : arena[id]? = some above)
      (way : Ascends arena above rest) : Ascends arena c ((l, above) :: rest)

/-- An arena is **well-formed**: what its contexts refer to is there. -/
structure WellFormed (arena : Arena N A β) : Prop where
  /-- A parent comes before its children. -/
  before : ∀ {id : Nat} {c : Context N A β} {parent : Nat}, arena[id]? = some c →
    c.parent = some parent → parent < id
  /-- A context has a location if and only if it has a parent. -/
  placed : ∀ {id : Nat} {c : Context N A β}, arena[id]? = some c →
    ((∃ location, c.location = some location) ↔ ∃ parent, c.parent = some parent)
  /-- The link of a context, which has both or neither, shows the parent and the location. -/
  linked : ∀ {id : Nat} {c : Context N A β}, arena[id]? = some c →
    c.link.map Link.parent = c.parent ∧ c.link.map Link.location = c.location
  /-- The children that are noted on a context have it as parent, and hang where they are noted. -/
  children : ∀ {id : Nat} {c : Context N A β} {ids : Children Nat}, arena[id]? = some c →
    c.children = some ids → ∀ p ∈ ids.located, ∃ d, arena[p.2]? = some d ∧
      d.parent = some id ∧ d.location = some p.1
  /-- The ancestors are all that is found on the way up. -/
  upward : ∀ {id : Nat} {c : Context N A β}, arena[id]? = some c →
    arena.Ascends c (arena.ancestors c) ∧ (arena.ancestors c).length ≤ id

/-- An arena is **tied** if contexts hang below earlier ones, each at some location, and children
where they are noted. -/
structure Tied (arena : Arena N A β) : Prop where
  before : ∀ {id : Nat} {c : Context N A β} {parent : Nat}, arena[id]? = some c →
    c.parent = some parent → parent < id
  placed : ∀ {id : Nat} {c : Context N A β}, arena[id]? = some c →
    c.location.isSome = c.parent.isSome
  children : ∀ {id : Nat} {c : Context N A β} {ids : Children Nat}, arena[id]? = some c →
    c.children = some ids → ∀ p ∈ ids.located, ∃ d, arena[p.2]? = some d ∧
      d.parent = some id ∧ d.location = some p.1

namespace Tied

variable {arena arena' : Arena N A β} {id : Nat} {c c' : Context N A β}

/-- A context hangs nowhere, or it has a parent that is there and a location. -/
theorem parent_cases (h : arena.Tied) (hc : arena[id]? = some c) :
    c.parent = none ∧ c.location = none ∨ ∃ parent above l, c.parent = some parent ∧
      c.location = some l ∧ arena[parent]? = some above ∧ parent < id := by
  have hplaced := h.placed hc
  cases hparent : c.parent with
  | none =>
    rw [hparent, Option.isSome_none, Option.isSome_eq_false_iff, Option.isNone_iff_eq_none]
      at hplaced
    exact .inl ⟨rfl, hplaced⟩
  | some parent =>
    rw [hparent, Option.isSome_some, Option.isSome_iff_exists] at hplaced
    obtain ⟨l, hl⟩ := hplaced
    have hbefore := h.before hc hparent
    exact .inr ⟨parent, _, l, rfl, hl,
      Array.getElem?_eq_getElem (Nat.lt_trans hbefore (lt_size_of_getElem? hc)), hbefore⟩

/-- The way up is found if it may be climbed as far as the **place** of the context. -/
theorem ascends_climb (h : arena.Tied) (hc : arena[id]? = some c) {n : Nat} (hn : id < n) :
    arena.Ascends c (arena.climb n c.link) ∧ (arena.climb n c.link).length ≤ id := by
  induction id using Nat.strongRecOn generalizing n c with
  | ind id ih =>
    obtain ⟨n, rfl⟩ : ∃ m, n = m + 1 := Nat.exists_eq_succ_of_ne_zero (by omega)
    rcases h.parent_cases hc with ⟨hparent, hlocation⟩ | ⟨parent, above, l, hparent, hlocation,
      hfound, hbefore⟩
    · rw [Context.link_of_root hparent]
      exact ⟨.root hparent hlocation, Nat.zero_le _⟩
    · obtain ⟨hrest, hlength⟩ := ih parent hbefore hfound (n := n) (by omega)
      rw [Context.link_of_parent hparent hlocation, climb, hfound]
      refine ⟨.up hparent hlocation hfound hrest, ?_⟩
      rw [List.length_cons]
      omega

/-- **Looking up ends**, and finds everything. -/
theorem ascends (h : arena.Tied) (hc : arena[id]? = some c) :
    arena.Ascends c (arena.ancestors c) ∧ (arena.ancestors c).length ≤ id :=
  h.ascends_climb hc (lt_size_of_getElem? hc)

theorem wellFormed (h : arena.Tied) : arena.WellFormed where
  before := h.before
  placed hc := by
    rw [← Option.isSome_iff_exists, ← Option.isSome_iff_exists, h.placed hc]
  linked hc := by
    rcases h.parent_cases hc with ⟨hparent, hlocation⟩ | ⟨_, _, _, hparent, hlocation, -⟩
    · rw [Context.link_of_root hparent, hparent, hlocation]
      exact ⟨rfl, rfl⟩
    · rw [Context.link_of_parent hparent hlocation, hparent, hlocation]
      exact ⟨rfl, rfl⟩
  children := h.children
  upward := h.ascends

/-! ### What keeps an arena tied -/

/-- A context that is changed, but **not moved**, and has only children that hang below it. -/
theorem modify (h : arena.Tied) (hc : arena[id]? = some c) (hstays : c.Stays c')
    (hchildren : ∀ ids, c'.children = some ids → ∀ p ∈ ids.located,
      ∃ d, arena[p.2]? = some d ∧ d.parent = some id ∧ d.location = some p.1) :
    Tied (arena.modify id fun _ => c') := by
  have hcases : ∀ {j : Nat} {d : Context N A β}, (arena.modify id fun _ => c')[j]? = some d →
      ∃ d', arena[j]? = some d' ∧ d'.Stays d ∧ (j = id ∧ d = c' ∨ d = d') := by
    intro j d hd
    rw [Array.getElem?_modify] at hd
    split at hd
    · next hid =>
      subst hid
      rw [hc] at hd
      obtain rfl := Option.some.inj hd
      exact ⟨c, hc, hstays, .inl ⟨rfl, rfl⟩⟩
    · exact ⟨d, hd, ⟨rfl, rfl⟩, .inr rfl⟩
  refine ⟨fun {j d parent} hd hparent => ?_, fun {j d} hd => ?_, fun {j d ids} hd hids p hp => ?_⟩
  · obtain ⟨d', hd', hsame, -⟩ := hcases hd
    exact h.before hd' (hsame.parent ▸ hparent)
  · obtain ⟨d', hd', hsame, -⟩ := hcases hd
    rw [hsame.location, hsame.parent]
    exact h.placed hd'
  · obtain ⟨e, he, hparent, hlocation⟩ : ∃ e, arena[p.2]? = some e ∧ e.parent = some j ∧
        e.location = some p.1 := by
      obtain ⟨d', hd', -, ⟨rfl, rfl⟩ | rfl⟩ := hcases hd
      · exact hchildren ids hids p hp
      · exact h.children hd' hids p hp
    -- the child is where it was, also if it is the context that was changed
    by_cases hp : p.2 = id
    · rw [hp, hc] at he
      obtain rfl := Option.some.inj he
      exact ⟨c', by rw [hp, Array.getElem?_modify_of_some hc], hstays.parent.trans hparent,
        hstays.location.trans hlocation⟩
    · exact ⟨e, by rw [Array.getElem?_modify, if_neg (Ne.symm hp), he], hparent, hlocation⟩

/-- A context that stays where it is and keeps its children. -/
theorem of_same (h : arena.Tied) (hc : arena[id]? = some c) (hstays : c.Stays c')
    (hchildren : c'.children = c.children) : Tied (arena.modify id fun _ => c') :=
  h.modify hc hstays fun _ hids => h.children hc (hchildren ▸ hids)

/-- New contexts that hang below **earlier** ones, with their parents and locations. -/
theorem append (h : arena.Tied) {found : List (Context N A β)}
    (hparents : ∀ d ∈ found, ∀ parent, d.parent = some parent → parent < arena.size)
    (hplaced : ∀ d ∈ found, d.location.isSome = d.parent.isSome)
    (hbare : ∀ d ∈ found, d.children = none) : Tied (arena ++ found.toArray) := by
  refine ⟨fun {j d parent} hd hparent => ?_, fun {j d} hd => ?_, fun {j d ids} hd hids p hp => ?_⟩
  · rcases append_cases hd with hold | ⟨hj, hnew⟩
    · exact h.before hold hparent
    · exact Nat.lt_of_lt_of_le (hparents d (List.mem_of_getElem? hnew) parent hparent) hj
  · rcases append_cases hd with hold | ⟨-, hnew⟩
    · exact h.placed hold
    · exact hplaced d (List.mem_of_getElem? hnew)
  · rcases append_cases hd with hold | ⟨-, hnew⟩
    · obtain ⟨e, he, hp⟩ := h.children hold hids p hp
      exact ⟨e, (Array.getElem?_append_left (lt_size_of_getElem? he)).trans he, hp⟩
    · cases hids.symm.trans (hbare d (List.mem_of_getElem? hnew))

/-- A context on which those are noted as children that hang below it. -/
theorem adopt (h : arena.Tied) (hc : arena[id]? = some c) {ids : Children Nat}
    (hids : ∀ p ∈ ids.located, ∃ d, arena[p.2]? = some d ∧ d.parent = some id ∧
      d.location = some p.1) :
    Tied (arena.modify id fun d => { d with children := some ids }) := by
  rw [modify_eq hc]
  refine h.modify hc ⟨rfl, rfl⟩ fun ids' hids' => ?_
  obtain rfl := Option.some.inj hids'
  exact hids

end Tied

end Arena

/-! ### Callbacks -/

variable [DecidableEq κ]

/-- A callback works on a **tied** arena, and on a context that is there. -/
def Spot.Sound (spot : Spot N A β) (l : Ledger N A β) : Prop :=
  l.arena.Tied ∧ ∃ c, l.arena[spot.id]? = some c

/-- No request concerns the children of a context. -/
theorem Request.Alters.children {c c' : Context N A β} {q : Request N A β} (h : q.Alters c c') :
    c'.children = c.children := by
  cases h <;> rfl

/-- No request moves a context. -/
theorem Request.Alters.stays {c c' : Context N A β} {q : Request N A β} (h : q.Alters c c') :
    c.Stays c' := by
  cases h <;> exact ⟨rfl, rfl⟩

/-- **What every request keeps**, granted or not. -/
theorem Spot.Sound.perform [Identified N] {spot : Spot N A β} {l : Ledger N A β} (h : spot.Sound l)
    (q : Request N A β) : spot.Sound ((spot.perform q).runWith l).2 := by
  obtain ⟨htied, c, hc⟩ := h
  obtain ⟨c', harena, halters⟩ := Spot.perform_alters hc q
  refine ⟨?_, c', by rw [harena, Array.getElem?_modify_of_some hc]⟩
  rw [harena]
  exact htied.of_same hc halters.stays halters.children

/-- The requests of a callback are made on tied arenas, and so is its end. -/
theorem Spot.Sound.run [Identified N] {spot : Spot N A β} {l : Ledger N A β} {V α : Type}
    (h : spot.Sound l) (view : Ledger N A β → V) (p : Program V (Request N A β) α) :
    spot.Sound (p.run view spot.perform l).2 ∧
      ∀ x ∈ p.asked view spot.perform l, spot.Sound x.1 :=
  Program.run_asked (fun q _ (_ : True) (_ : True) hl => hl.perform q) (.of_true p) h
    fun _ _ => trivial

/-! ### What is seen of an arena -/

/-- What a callback sees is **there**: the ancestors of its context are all that is found on the way
up, the crumbs, the nodes above and the inherited variables are read off that way, and all children
that are noted on the context are found. -/
structure Cursor.WellFormed [Identified N] (v : Cursor N A β) (id : Nat) : Prop where
  arena : v.arena.WellFormed
  here : v.arena[id]? = some v.here
  above : ∃ above, v.arena.Ascends v.here above ∧
    v.crumbs = above.map (fun p => ⟨p.2.node, p.1⟩) ∧
    v.parents = above.map (fun p => p.2.node) ∧
    ∀ k, v.arena.inherited? v.rootVars v.here k =
      (above.findSome? fun p => p.2.vars.get? k).or (v.rootVars.get? k)
  below : ∀ ids, v.here.children = some ids → ∀ i ∈ ids.flatten, ∃ c, v.arena[i]? = some c

theorem Cursor.WellFormed.of_tied [Identified N] {v : Cursor N A β} {id : Nat} (h : v.arena.Tied)
    (hhere : v.arena[id]? = some v.here) : v.WellFormed id where
  arena := h.wellFormed
  here := hhere
  above := by
    refine ⟨_, (h.ascends hhere).1, rfl, rfl, fun k => ?_⟩
    rw [Arena.inherited?]
    split
    · next hfound => rw [hfound, Option.some_or]
    · next hnone => rw [hnone, Option.none_or]
  below ids hids i hi := by
    rw [← Children.map_located] at hi
    obtain ⟨p, hp, rfl⟩ := List.mem_map.mp hi
    obtain ⟨d, hd, -⟩ := h.children hhere hids p hp
    exact ⟨d, hd⟩

namespace Traversal

variable [Identified N] {plan : Plan N A β} {visitor : SequentialVisitor σ N A β} {entry : Entry}
  {s s' : State N A β} {own own' : σ}

/-! ### Steps -/

/-- A callback leaves a tied arena, and its requests are made on tied ones. -/
theorem State.call_tied (h : s.ledger.arena.Tied) (rootVars : Vars β) (id : Nat) (phase : Phase)
    (callback : Callback σ (Cursor N A β) (Request N A β) Control) (own : σ) :
    (∀ a ∈ s.asked rootVars id phase callback own, a.spot.Sound a.ledger) ∧
      ∀ control s' own', (s.call rootVars id phase callback).runWith own =
        (.ok (control, s'), own') → s'.ledger.arena.Tied := by
  cases hc : s.ledger.arena[id]? with
  | none =>
    rw [State.asked, hc]
    refine ⟨fun a ha => absurd ha List.not_mem_nil, fun control s' own' hcall => ?_⟩
    rw [State.call, hc] at hcall
    cases hcall
    exact h
  | some c =>
    let spot : Spot N A β := ⟨id, s.readied phase c⟩
    have hstart : spot.Sound (s.ledger.modifyAt id fun _ => s.readied phase c) :=
      ⟨h.of_same hc ⟨rfl, rfl⟩ rfl, _, Array.getElem?_modify_of_some hc _⟩
    obtain ⟨hend, hasked⟩ := hstart.run (spot.cursor rootVars s.visited) (callback own)
    rw [State.asked, hc]
    refine ⟨fun a ha => ?_, fun control s' own' hcall => ?_⟩
    · obtain ⟨x, hx, rfl⟩ := List.mem_map.mp ha
      exact hasked x hx
    · rw [State.eq_of_call_ok hc hcall]
      exact hend.1

omit [DecidableEq κ] in
/-- **Expanding** a node ties its children to it. -/
theorem State.expand_tied (h : s.ledger.arena.Tied) (plan : Plan N A β) (id : Nat) :
    (s.expand plan id).ledger.arena.Tied := by
  cases hc : s.ledger.arena[id]? with
  | none => rwa [State.expand_of_none hc]
  | some c =>
    have hid := Arena.lt_size_of_getElem? hc
    -- every child gets a parent and a location
    have hfound : ∀ d ∈ plan.found c id s.accumulate, d.parent = some id ∧
        (∃ l, d.location = some l) ∧ d.children = none := by
      intro d hd
      obtain ⟨p, -, rfl⟩ := Plan.exists_of_mem_found hd
      exact ⟨rfl, ⟨p.1, rfl⟩, rfl⟩
    have hparents : ∀ d ∈ plan.found c id s.accumulate, ∀ parent, d.parent = some parent →
        parent < s.ledger.arena.size := by
      intro d hd parent hparent
      rw [(hfound d hd).1] at hparent
      exact Option.some.inj hparent ▸ hid
    have hplaced : ∀ d ∈ plan.found c id s.accumulate, d.location.isSome = d.parent.isSome := by
      intro d hd
      obtain ⟨hparent, ⟨l, hl⟩, -⟩ := hfound d hd
      rw [hparent, hl, Option.isSome_some, Option.isSome_some]
    have hadded := h.append hparents hplaced fun d hd => (hfound d hd).2.2
    rw [State.expand_eq hc]
    refine hadded.adopt ((Array.getElem?_append_left hid).trans hc) fun p hp => ?_
    -- the child that is noted as the `i`-th is the `i`-th of the new contexts
    rw [Children.located_number, List.mem_mapIdx] at hp
    obtain ⟨i, hi, rfl⟩ := hp
    refine ⟨Context.discover (plan.below c).located[i].2 (some id)
      (some (plan.below c).located[i].1) s.accumulate, ?_, rfl, rfl⟩
    rw [Array.getElem?_append_right (Nat.le_add_right _ _), Nat.add_sub_cancel_left]
    simp [Plan.found, hi]

/-- **What steps keep**. -/
theorem step_tied (h : s.ledger.arena.Tied) (plan : Plan N A β)
    (visitor : SequentialVisitor σ N A β) (entry : Entry) (own : σ) :
    (∀ a ∈ stepAsked plan visitor entry s own, a.spot.Sound a.ledger) ∧
      ∀ s' own', (step plan visitor entry s).runWith own = (.ok s', own') →
        s'.ledger.arena.Tied := by
  obtain ⟨hasked, hcalled⟩ := State.call_tied h plan.rootVars entry.id (s.phaseOf entry)
    (visitor.on (s.phaseOf entry)) own
  refine ⟨hasked, fun s' own' hstep => ?_⟩
  obtain ⟨control, s₁, hcall, hrest⟩ := step_cases hstep
  have hend := hcalled control s₁ own' hcall
  rcases hrest with ⟨hledger, -⟩ | ⟨visited, -, rfl⟩
  · rw [hledger]
    exact hend
  · exact State.expand_tied (s := { s₁ with visited }) hend plan entry.id

/-- A callback **sees** tied arenas, and the context that it is about. -/
theorem dialogue?_tied (h : s.ledger.arena.Tied) {d : Dialogue N A β}
    (hd : s.dialogue? plan visitor entry own = some d) :
    ∀ v ∈ d.views, v.arena.Tied ∧ v.arena[d.event.id]? = some v.here := by
  obtain ⟨c, hc, hd⟩ := Option.bind_eq_some_iff.mp hd
  obtain ⟨e, he, hd⟩ := Option.bind_eq_some_iff.mp hd
  obtain rfl := Option.some.inj hd
  have hstart : (s.spotAt entry c).Sound (s.ledgerAt entry c) :=
    ⟨h.of_same hc ⟨rfl, rfl⟩ rfl, _, Array.getElem?_modify_of_some hc _⟩
  have hview : ∀ l, (s.spotAt entry c).Sound l →
      (s.viewAt plan entry c l).arena.Tied ∧
        (s.viewAt plan entry c l).arena[entry.id]? = some (s.viewAt plan entry c l).here := by
    rintro l ⟨htied, c', hc'⟩
    exact ⟨htied, hc'.trans (congrArg some (Spot.context_eq hc').symm)⟩
  rw [State.event?, hc] at he
  obtain rfl := Option.some.inj he
  intro v hv
  rcases List.mem_cons.mp hv with rfl | hv
  · exact hview _ hstart
  · obtain ⟨l, hl, rfl⟩ :=
      Program.exists_of_mem_shown (fun q _ hl => hl.perform q) _ hstart hv
    exact hview l hl

/-! ### Walks -/

/-- The entries of a walk that were not dealt with are those of a **running** walk, and none once
the walk was quit; and its arena is tied. -/
structure Sturdy (s : State N A β) : Prop where
  tied : s.ledger.arena.Tied
  running : (∃ past, Running past s) ∨ s.pending = []

/-- A state of a walk is **well-formed**: its arena is, all pending entries are about contexts of
it, and no context is pending twice. -/
structure State.WellFormed (s : State N A β) : Prop where
  arena : s.ledger.arena.WellFormed
  known : ∀ entry ∈ s.pending, entry.id < s.ledger.arena.size
  visits : (s.pending.filterMap Entry.visit?).Nodup
  leaves : (s.pending.filterMap Entry.leave?).Nodup

namespace Sturdy

omit [DecidableEq κ] in
theorem wellFormed (h : Sturdy s) : s.WellFormed := by
  rcases h.running with ⟨past, hrunning⟩ | hnil
  · have hpending : s.pending.Sublist (line past s) := List.sublist_append_right _ _
    refine ⟨h.tied.wellFormed, fun entry hentry => ?_, ?_, ?_⟩
    · rw [← Arena.length_outline]
      exact hrunning.known entry hentry
    · exact hrunning.visits_nodup.sublist (hpending.filterMap _)
    · exact hrunning.leaves_nodup.sublist (hpending.filterMap _)
  · exact ⟨h.tied.wellFormed, by simp [hnil], by simp [hnil], by simp [hnil]⟩

omit [DecidableEq κ] in
/-- A walk starts with the contexts of its roots, which have neither parents nor children. -/
theorem start (plan : Plan N A β) (recording : Bool) (roots : List N) :
    Sturdy (Traversal.start plan recording roots) := by
  have hroot : ∀ {i : Nat} {c : Context N A β},
      (Traversal.start plan recording roots).ledger.arena[i]? = some c →
        c.parent = none ∧ c.location = none ∧ c.children = none := by
    intro i c hc
    rw [Traversal.start, List.getElem?_toArray] at hc
    obtain ⟨root, -, rfl⟩ := List.mem_map.mp (List.mem_of_getElem? hc)
    exact ⟨rfl, rfl, rfl⟩
  refine ⟨⟨fun hc hparent => ?_, fun hc => ?_, fun hc hids => ?_⟩,
    .inl ⟨[], Running.start plan recording roots⟩⟩
  · cases hparent.symm.trans (hroot hc).1
  · rw [(hroot hc).1, (hroot hc).2.1, Option.isSome_none, Option.isSome_none]
  · cases hids.symm.trans (hroot hc).2.2

/-- **What every step keeps.** -/
theorem step {rest : List Entry} (h : Sturdy s) (hpending : s.pending = entry :: rest)
    (hstep : (Traversal.step plan visitor entry { s with pending := rest }).runWith own =
      (.ok s', own')) : Sturdy s' := by
  obtain ⟨past, hrunning⟩ : ∃ past, Running past s :=
    h.running.resolve_right fun hnil => List.cons_ne_nil _ _ (hpending.symm.trans hnil)
  have hknown : entry.id < (State.outline { s with pending := rest }).length :=
    hrunning.known entry (hpending ▸ List.mem_cons_self)
  obtain ⟨e, -, htakes, -, hcontinues, -⟩ := step_continues (upholds_true plan visitor)
    (s := { s with pending := rest }) (fun _ _ _ => trivial) hknown own
  rw [hstep] at hcontinues
  refine ⟨(step_tied (s := { s with pending := rest }) h.tied plan visitor entry own).2 _ _ hstep,
    ?_⟩
  exact (hrunning.step hpending
    ⟨htakes.entry, htakes.new, htakes.again, htakes.outline, htakes.here⟩ hcontinues).imp
    (fun hnext => ⟨_, hnext⟩) And.left

end Sturdy

/-- The states through which at most `limit` steps **pass**, with the first one. -/
def passed (plan : Plan N A β) (visitor : SequentialVisitor σ N A β) :
    Nat → State N A β → σ → List (State N A β)
  | 0, s, _ => [s]
  | limit + 1, s, own =>
    s :: match s.pending with
      | [] => []
      | entry :: pending =>
        match (step plan visitor entry { s with pending }).runWith own with
        | (.ok s', own') => passed plan visitor limit s' own'
        | (.error _, _) => []

/-- **What a run passes through** is sturdy, and what its callbacks work on and see is tied. -/
theorem run_tied (h : Sturdy s) (plan : Plan N A β) (visitor : SequentialVisitor σ N A β)
    (limit : Nat) (own : σ) :
    (∀ t ∈ passed plan visitor limit s own, Sturdy t) ∧
      (∀ a ∈ requests plan visitor limit s own, a.spot.Sound a.ledger) ∧
      ∀ d ∈ dialogues plan visitor limit s own, ∀ v ∈ d.views,
        v.arena.Tied ∧ v.arena[d.event.id]? = some v.here := by
  induction limit generalizing s own with
  | zero => exact ⟨by simpa [passed] using h, by simp [requests], by simp [dialogues]⟩
  | succ limit ih =>
    rw [passed, requests, dialogues, List.forall_mem_cons]
    cases hpending : s.pending with
    | nil => exact ⟨⟨h, by simp⟩, by simp, by simp⟩
    | cons entry pending =>
      obtain ⟨hasked, -⟩ :=
        step_tied (s := { s with pending }) h.tied plan visitor entry own
      have hviews : ∀ d ∈ (State.dialogue? { s with pending } plan visitor entry own).toList,
          ∀ v ∈ d.views, v.arena.Tied ∧ v.arena[d.event.id]? = some v.here := fun d hd =>
        dialogue?_tied (s := { s with pending }) h.tied (Option.mem_toList.mp hd)
      rw [List.forall_mem_append, List.forall_mem_append]
      dsimp only
      cases hstep : (step plan visitor entry { s with pending }).runWith own with
      | mk out own' =>
        cases out with
        | error e => exact ⟨⟨h, by simp⟩, ⟨hasked, by simp⟩, hviews, by simp⟩
        | ok s' =>
          obtain ⟨hpassed, hrequests, hdialogues⟩ := ih (h.step hpending hstep) own'
          exact ⟨⟨h, hpassed⟩, ⟨hasked, hrequests⟩, hviews, hdialogues⟩

/-- The last state of a run is one through which it passes. -/
theorem mem_passed_of_steps {limit : Nat} {s t : State N A β} {own own' : σ}
    (h : (steps plan visitor limit s).runWith own = (.ok t, own')) :
    t ∈ passed plan visitor limit s own := by
  induction limit generalizing s own with
  | zero =>
    cases hpending : s.pending with
    | nil =>
      rw [steps_of_nil plan visitor hpending] at h
      cases h
      simp [passed]
    | cons entry pending =>
      rw [steps.eq_def] at h
      simp only [hpending] at h
      cases h
  | succ limit ih =>
    rw [passed]
    cases hpending : s.pending with
    | nil =>
      rw [steps_of_nil plan visitor hpending] at h
      cases h
      exact List.mem_cons_self
    | cons entry pending =>
      rw [steps_of_cons plan visitor hpending] at h
      dsimp only
      cases hstep : (step plan visitor entry { s with pending }).runWith own with
      | mk out own₁ =>
        cases out with
        | error e =>
          rw [Walk.runWith_bind_error (Walk.runWith_ofAttempt_error hstep)] at h
          cases h
        | ok s' =>
          rw [Walk.runWith_bind_ok (Walk.runWith_ofAttempt_ok hstep)] at h
          exact List.mem_cons_of_mem _ (ih h)

/-- **The arena is well-formed throughout every walk**, in either order, on every graph, for every
visitor and however far the walk gets: between any two steps, at every request and after it, and at
every look of a callback. Each state has all contexts that are pending, and none is pending twice.
The last state of a walk that ends is one of these states. -/
theorem walk_wellFormed (plan : Plan N A β) (visitor : SequentialVisitor σ N A β)
    (recording : Bool) (limit : Nat) (roots : List N) (own : σ) :
    (∀ s ∈ passed plan visitor limit (start plan recording roots) own, s.WellFormed) ∧
      (∀ a ∈ requested plan visitor recording limit roots own,
        a.ledger.arena.WellFormed ∧ a.outcome.2.arena.WellFormed ∧
          a.spot.id < a.ledger.arena.size) ∧
      (∀ d ∈ transcript plan visitor recording limit roots own, ∀ v ∈ d.views,
        v.WellFormed d.event.id) ∧
      ∀ s own', (walk plan visitor recording limit roots).runWith own = (.ok s, own') →
        s ∈ passed plan visitor limit (start plan recording roots) own := by
  obtain ⟨hpassed, hrequests, hdialogues⟩ :=
    run_tied (Sturdy.start plan recording roots) plan visitor limit own
  refine ⟨fun s hs => (hpassed s hs).wellFormed, fun a ha => ?_, fun d hd v hv => ?_,
    fun s own' => mem_passed_of_steps⟩
  · have hsound := hrequests a ha
    obtain ⟨c, hc⟩ := hsound.2
    exact ⟨hsound.1.wellFormed, (hsound.perform a.request).1.wellFormed,
      Arena.lt_size_of_getElem? hc⟩
  · obtain ⟨htied, hhere⟩ := hdialogues d hd v hv
    exact .of_tied htied hhere

open Arborist.Graph

/-- On a ring that is walked breadth-first, contexts that have been discovered are pending while
others are entered, and one of a node that is met again lies two links below the root. -/
theorem walk_wellFormed_ring :
    (∃ s ∈ passed wideRingPlan tallyVisitor 20 (start wideRingPlan true [.listed "a"]) (),
      5 ≤ s.ledger.arena.size ∧ s.pending.length = 4 ∧ s.WellFormed) ∧
    (∃ a ∈ requested wideRingPlan tallyVisitor true 20 [.listed "a"] (),
      a.spot.id = 4 ∧ a.ledger.arena.WellFormed) ∧
    (∃ d ∈ transcript wideRingPlan tallyVisitor true 20 [.listed "a"] (),
      d.event.phase = .backRef ∧ d.event.seen.parents.length = 2 ∧
        d.event.seen.WellFormed d.event.id) ∧
    ∃ s own', (walk wideRingPlan tallyVisitor true 20 [.listed "a"]).runWith () = (.ok s, own') ∧
      s ∈ passed wideRingPlan tallyVisitor 20 (start wideRingPlan true [.listed "a"]) () := by
  obtain ⟨hpassed, hrequested, htranscript, hlast⟩ :=
    walk_wellFormed wideRingPlan tallyVisitor true 20 [.listed "a"] ()
  have hstate : (passed wideRingPlan tallyVisitor 20 (start wideRingPlan true [.listed "a"])
      ()).any (fun s => decide (5 ≤ s.ledger.arena.size ∧ s.pending.length = 4)) = true := by
    decide +kernel
  have hask : (requested wideRingPlan tallyVisitor true 20 [.listed "a"] ()).any
      (fun a => decide (a.spot.id = 4)) = true := by decide +kernel
  have hmet : (transcript wideRingPlan tallyVisitor true 20 [.listed "a"] ()).any (fun d =>
      decide (d.event.phase = .backRef ∧ d.event.seen.parents.length = 2)) = true := by
    decide +kernel
  have hends :
      ((walk wideRingPlan tallyVisitor true 20 [.listed "a"]).runWith ()).1.isOk = true := by
    decide +kernel
  obtain ⟨s, hs, hchecked⟩ := List.any_eq_true.mp hstate
  obtain ⟨a, ha, hid⟩ := List.any_eq_true.mp hask
  obtain ⟨d, hd, hbackRef⟩ := List.any_eq_true.mp hmet
  obtain ⟨hsize, hpending⟩ := of_decide_eq_true hchecked
  obtain ⟨hphase, hparents⟩ := of_decide_eq_true hbackRef
  refine ⟨⟨s, hs, hsize, hpending, hpassed s hs⟩,
    ⟨a, ha, of_decide_eq_true hid, (hrequested a ha).1⟩,
    ⟨d, hd, hphase, hparents, htranscript d hd _ List.mem_cons_self⟩, ?_⟩
  cases hwalk : (walk wideRingPlan tallyVisitor true 20 [.listed "a"]).runWith () with
  | mk out own' =>
    rw [hwalk] at hends
    cases out with
    | error i => cases hends
    | ok t => exact ⟨t, own', rfl, hlast t own' hwalk⟩

end Traversal

end Arborist
