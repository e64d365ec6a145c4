import Arborist.Proofs.Exactness

/-!
# Breadth-first walks go level by level

The pending entries of a breadth-first walk are a queue, in which visits and leavings of several
levels stand one behind the other. Whatever the visitor does, contexts are reached in the order of
their **depth**, a context is left after all of its children have been reached and before anything
happens to its grandchildren, and contexts are left in the order in which they were entered
(`LevelOrder`, `walk_levelOrder`). If nothing is edited or passed over, then every node is entered
at its smallest possible depth.

Everything follows from how the queue grows. Contexts are discovered in the order in which they are
visited, so their places in the arena tell the order, and the parent of a context has been visited
before any context that is still pending (`Queued`).
-/

namespace Arborist

variable {σ N A κ : Type} {β : κ → Type}

/-- The place of the context above the one at `id`. -/
def Arena.parent? (arena : Arena N A β) (id : Nat) : Option Nat :=
  arena[id]?.bind fun c => c.link.map Link.parent

namespace Traversal

variable [Identified N]

namespace Event

/-- The **depth** of the context: the number of crumbs on the way to the root. -/
def depth (e : Event N A β) : Nat :=
  e.seen.crumbs.length

/-- The context above. -/
def parent? (e : Event N A β) : Option Nat :=
  e.seen.arena.parent? e.id

/-- The context above the one above. -/
def grandparent? (e : Event N A β) : Option Nat :=
  e.parent?.bind e.seen.arena.parent?

end Event

/-- The callbacks of a walk come in **level order**. -/
structure LevelOrder (es : List (Event N A β)) : Prop where
  /-- No context is reached after a deeper one. -/
  rising : es.Pairwise fun x y => x.phase ≠ .leave → y.phase ≠ .leave → x.depth ≤ y.depth
  /-- When a context is left, all of its children have been reached. -/
  afterChildren : ∀ (before : List (Event N A β)) (e : Event N A β), before ++ [e] <+: es →
    e.phase = .leave → ∀ id, e.seen.arena.parent? id = some e.id →
      ∃ x ∈ before, x.phase ≠ .leave ∧ x.id = id
  /-- No child of a context is reached after the context was left. -/
  noChildren : es.Pairwise fun x y => x.phase = .leave → y.phase ≠ .leave → y.parent? ≠ some x.id
  /-- Nothing happens to a grandchild before the context is left. -/
  beforeGrandchildren : es.Pairwise fun x y => y.phase = .leave → x.grandparent? ≠ some y.id
  /-- Contexts are left in the order in which they were entered. -/
  inTurn : ((calls .leave es).map Event.id).Sublist ((calls .enter es).map Event.id)

/-! ### Depths in an outline -/

section Outline

variable {outline outline' : List (N × Option Link)} {id : Nat} {n : N} {link : Option Link}

/-- The place above the one at `id`. -/
def parentIn (outline : List (N × Option Link)) (id : Nat) : Option Nat :=
  outline[id]?.bind fun c => c.2.map Link.parent

/-- Links lead back to earlier contexts. -/
def BackLinked (outline : List (N × Option Link)) : Prop :=
  ∀ (id : Nat) (n : N) (link : Link), outline[id]? = some (n, some link) → link.parent < id

/-- The context at a place is at a **depth**. -/
inductive AtDepth (outline : List (N × Option Link)) : Nat → Nat → Prop where
  | root {id : Nat} {n : N} (found : outline[id]? = some (n, none)) : AtDepth outline id 0
  | child {id d : Nat} {n : N} {link : Link} (found : outline[id]? = some (n, some link))
      (before : link.parent < id) (above : AtDepth outline link.parent d) :
      AtDepth outline id (d + 1)

omit [Identified N]

theorem parent?_eq (arena : Arena N A β) (id : Nat) :
    arena.parent? id = parentIn arena.outline id := by
  rw [Arena.parent?, parentIn, Arena.getElem?_outline]
  cases arena[id]? <;> rfl

theorem parentIn_of_isPrefix (h : outline <+: outline') (hid : id < outline.length) :
    parentIn outline' id = parentIn outline id := by
  obtain ⟨more, rfl⟩ := h
  rw [parentIn, parentIn, List.getElem?_append_left hid]

theorem BackLinked.of_isPrefix (h : BackLinked outline') (hextends : outline <+: outline') :
    BackLinked outline :=
  fun id n link hid => h id n link (getElem?_of_isPrefix hextends hid)

theorem BackLinked.parentIn_lt (h : BackLinked outline) {p : Nat}
    (hp : parentIn outline id = some p) : p < id := by
  obtain ⟨⟨n, link⟩, hid, hlink⟩ := Option.bind_eq_some_iff.mp hp
  obtain ⟨link, rfl, rfl⟩ := Option.map_eq_some_iff.mp hlink
  exact h id n link hid

/-- What is discovered below a context has its link. -/
theorem parentIn_append {added : List (N × Option Link)} {p : Nat}
    (hadded : ∀ c ∈ added, ∃ location, c.2 = some ⟨p, location⟩) (hid : outline.length ≤ id)
    (hlt : id < (outline ++ added).length) : parentIn (outline ++ added) id = some p := by
  obtain ⟨c, hc⟩ : ∃ c, (outline ++ added)[id]? = some c := ⟨_, List.getElem?_eq_getElem hlt⟩
  have hnew := hc
  rw [List.getElem?_append_right hid] at hnew
  obtain ⟨location, hlocation⟩ := hadded c (List.mem_of_getElem? hnew)
  rw [parentIn, hc]
  show c.2.map Link.parent = some p
  rw [hlocation]
  rfl

theorem BackLinked.append (h : BackLinked outline) {added : List (N × Option Link)} {p : Nat}
    {c : N × Option Link} (hp : outline[p]? = some c)
    (hadded : ∀ c ∈ added, ∃ location, c.2 = some ⟨p, location⟩) :
    BackLinked (outline ++ added) := by
  intro id n link hid
  rcases Nat.lt_or_ge id outline.length with hold | hnew
  · rw [List.getElem?_append_left hold] at hid
    exact h id n link hid
  · rw [List.getElem?_append_right hnew] at hid
    obtain ⟨location, hlocation⟩ := hadded _ (List.mem_of_getElem? hid)
    obtain rfl := Option.some.inj hlocation
    exact Nat.lt_of_lt_of_le (List.getElem?_eq_some_iff.mp hp).1 hnew

/-- What happens above a context shows in the part of the outline up to it. -/
theorem grandparentIn_of_isPrefix (hlinked : BackLinked outline) (h : outline <+: outline')
    (hid : id < outline.length) :
    (parentIn outline' id).bind (parentIn outline') =
      (parentIn outline id).bind (parentIn outline) := by
  rw [parentIn_of_isPrefix h hid]
  cases hp : parentIn outline id with
  | none => rfl
  | some p => exact parentIn_of_isPrefix h (Nat.lt_trans (hlinked.parentIn_lt hp) hid)

theorem BackLinked.exists_atDepth (h : BackLinked outline) (hid : id < outline.length) :
    ∃ d, AtDepth outline id d := by
  induction id using Nat.strongRecOn with
  | ind id ih =>
    have hfound := List.getElem?_eq_getElem hid
    obtain ⟨⟨n, link⟩, hc⟩ : ∃ c, outline[id] = c := ⟨_, rfl⟩
    rw [hc] at hfound
    cases link with
    | none => exact ⟨0, .root hfound⟩
    | some link =>
      have hbefore := h id n link hfound
      obtain ⟨d, hd⟩ := ih link.parent hbefore (Nat.lt_trans hbefore hid)
      exact ⟨d + 1, .child hfound hbefore hd⟩

theorem AtDepth.of_isPrefix {d : Nat} (h : AtDepth outline id d) (hextends : outline <+: outline') :
    AtDepth outline' id d := by
  induction h with
  | root found => exact .root (getElem?_of_isPrefix hextends found)
  | child found before _ ih => exact .child (getElem?_of_isPrefix hextends found) before ih

/-- Depths depend on what was discovered before. -/
theorem AtDepth.restrict {d : Nat} (h : AtDepth outline' id d) (hextends : outline <+: outline')
    (hid : id < outline.length) : AtDepth outline id d := by
  obtain ⟨more, rfl⟩ := hextends
  induction h with
  | root found => exact .root (by rwa [List.getElem?_append_left hid] at found)
  | child found before _ ih =>
    rw [List.getElem?_append_left hid] at found
    exact .child found before (ih (Nat.lt_trans before hid))

theorem AtDepth.unique {d d' : Nat} (h : AtDepth outline id d) (h' : AtDepth outline id d') :
    d = d' := by
  induction h generalizing d' with
  | root found =>
    cases h' with
    | root => rfl
    | child found' => cases found.symm.trans found'
  | child found before above ih =>
    cases h' with
    | root found' => cases found.symm.trans found'
    | child found' before' above' =>
      obtain ⟨rfl, hlink⟩ := Prod.mk.inj (Option.some.inj (found.symm.trans found'))
      obtain rfl := Option.some.inj hlink
      rw [ih above']

/-- The depth is the number of contexts above. -/
theorem AtDepth.length_climb {arena : Arena N A β} {d : Nat} (h : AtDepth arena.outline id d)
    (hid : arena.outline[id]? = some (n, link)) {steps : Nat} (hsteps : id ≤ steps) :
    (arena.climb steps link).length = d := by
  induction h generalizing n link steps with
  | root found =>
    obtain ⟨-, rfl⟩ := Prod.mk.inj (Option.some.inj (found.symm.trans hid))
    cases steps <;> rfl
  | @child id d m up found before above ih =>
    obtain ⟨-, rfl⟩ := Prod.mk.inj (Option.some.inj (found.symm.trans hid))
    obtain ⟨steps, rfl⟩ : ∃ k, steps = k + 1 := Nat.exists_eq_succ_of_ne_zero (by omega)
    have hlt := Nat.lt_trans before (List.getElem?_eq_some_iff.mp found).1
    rw [Arena.length_outline] at hlt
    obtain ⟨c, hc⟩ : ∃ c, arena[up.parent]? = some c := ⟨_, Array.getElem?_eq_getElem hlt⟩
    have hparent : arena.outline[up.parent]? = some (c.first, c.link) := by
      rw [Arena.getElem?_outline, hc]
      rfl
    rw [Arena.climb, hc, List.length_cons, ih hparent (by omega)]

end Outline

namespace Event.Within

variable {e : Event N A β} {outline : List (N × Option Link)}

theorem parent?_eq (h : e.Within outline) : e.parent? = parentIn outline e.id := by
  rw [Event.parent?, Traversal.parent?_eq]
  exact (parentIn_of_isPrefix h.seen (List.getElem?_eq_some_iff.mp h.here).1).symm

theorem grandparent?_eq (h : e.Within outline) (hlinked : BackLinked outline) :
    e.grandparent? = (parentIn outline e.id).bind (parentIn outline) := by
  rw [grandparentIn_of_isPrefix (hlinked.of_isPrefix h.seen) h.seen
    (List.getElem?_eq_some_iff.mp h.here).1, Event.grandparent?, Event.parent?,
    Traversal.parent?_eq]
  exact congrArg _ (funext fun p => Traversal.parent?_eq _ p)

theorem atDepth (h : e.Within outline) (hlinked : BackLinked outline) :
    AtDepth outline e.id e.depth := by
  have hid := (List.getElem?_eq_some_iff.mp h.here).1
  obtain ⟨d, hd⟩ := (hlinked.of_isPrefix h.seen).exists_atDepth hid
  rw [Arena.length_outline] at hid
  have hdepth : e.depth = d := by
    rw [Event.depth, Cursor.crumbs, Arena.crumbs, List.length_map]
    exact hd.length_climb h.here (Nat.le_of_lt hid)
  rw [hdepth]
  exact hd.of_isPrefix h.seen

end Event.Within

/-! ### The queue -/

theorem filterMap_visit?_added (id : Nat) (ids : List Nat) :
    (ids.map Entry.visit ++ [Entry.leave id]).filterMap Entry.visit? = ids := by
  rw [List.filterMap_append, List.filterMap_map]
  exact (List.append_nil _).trans List.filterMap_some

/-- How two entries of a line may follow each other. -/
structure InOrder (outline : List (N × Option Link)) (x y : Entry) : Prop where
  noChild : ∀ c id, x = .leave c → y = .visit id → parentIn outline id ≠ some c
  noGrandchild : ∀ c, y = .leave c → (parentIn outline x.id).bind (parentIn outline) ≠ some c

namespace InOrder

variable {outline : List (N × Option Link)} {x : Entry} {c id : Nat}

omit [Identified N] in
theorem before_visit (h : ∀ c, x = .leave c → parentIn outline id ≠ some c) :
    InOrder outline x (.visit id) where
  noChild c _ hx hy := by
    cases hy
    exact h c hx
  noGrandchild _ hy := by cases hy

omit [Identified N] in
theorem before_leave (h : (parentIn outline x.id).bind (parentIn outline) ≠ some c) :
    InOrder outline x (.leave c) where
  noChild _ _ _ hy := by cases hy
  noGrandchild _ hy := by
    cases hy
    exact h

omit [Identified N] in
/-- Visits may come in any order. -/
theorem visits (ids : List Nat) : (ids.map Entry.visit).Pairwise (InOrder outline) :=
  List.pairwise_map.mpr (List.pairwise_of_forall_mem_list fun _ _ _ _ =>
    before_visit fun _ hx => by cases hx)

end InOrder

/-- What holds of a **breadth-first** walk and of its callbacks so far. -/
structure Queued (past : List (Event N A β)) (s : State N A β) : Prop where
  /-- Contexts are visited in the order in which they were discovered. -/
  visits : (line past s).filterMap Entry.visit? = List.range s.outline.length
  /-- Contexts are left in the order in which they were opened. -/
  leaves : (line past s).filterMap Entry.leave? = (past.filter Event.opens).map Event.id
  linked : BackLinked s.outline
  /-- Children are discovered when a context is opened. -/
  opened : ∀ id p, parentIn s.outline id = some p → p ∈ (past.filter Event.opens).map Event.id
  /-- Deeper contexts are discovered later. -/
  level : ∀ i j a b, i ≤ j → AtDepth s.outline i a → AtDepth s.outline j b → a ≤ b
  ordered : (line past s).Pairwise (InOrder s.outline)
  /-- A node is entered at its first context. -/
  earliest : ∀ x ∈ past, x.phase ≠ .leave →
    ∃ o ∈ past, o.phase = .enter ∧ identity o.first = identity x.first ∧ o.id ≤ x.id

namespace Queued

variable {plan : Plan N A β} {entry : Entry} {rest : List Entry} {past : List (Event N A β)}
  {e : Event N A β} {s s' : State N A β} {K : N → N → Bool → Prop}

/-- What was visited before comes before. -/
theorem visited_lt (h : Queued past s) (hpending : s.pending = entry :: rest)
    (htakes : e.Takes s entry) (hphase : e.phase ≠ .leave) {id : Nat}
    (hid : id ∈ (past.filter (·.phase ≠ .leave)).map Event.id) : id < e.id := by
  have hsorted : ((line past s).filterMap Entry.visit?).Pairwise (· < ·) := by
    rw [h.visits]
    exact List.pairwise_lt_range
  rw [line, hpending, ← htakes.entry, Event.entry_of_ne hphase, List.filterMap_append,
    filterMap_visit?_entry] at hsorted
  exact (List.pairwise_append.mp hsorted).2.2 id hid e.id List.mem_cons_self

theorem opened_lt (h : Queued past s) (hpending : s.pending = entry :: rest)
    (htakes : e.Takes s entry) (hphase : e.phase ≠ .leave) {id : Nat}
    (hid : id ∈ (past.filter Event.opens).map Event.id) : id < e.id :=
  h.visited_lt hpending htakes hphase ((opened_sublist past).subset hid)

/-- Every context is visited at some place of the line. -/
theorem visit_mem_line (h : Queued past s) {id : Nat} (hid : id < s.outline.length) :
    Entry.visit id ∈ line past s := by
  have hmem : id ∈ (line past s).filterMap Entry.visit? := by
    rw [h.visits]
    exact List.mem_range.mpr hid
  obtain ⟨entry, hentry, hvisit⟩ := List.mem_filterMap.mp hmem
  cases entry with
  | visit id' => exact Option.some.inj hvisit ▸ hentry
  | leave id' => cases hvisit

/-- When a context is left, its children have been visited. -/
theorem children_visited (h : Queued past s) (hpending : s.pending = .leave e.id :: rest) {id : Nat}
    (hid : parentIn s.outline id = some e.id) : ∃ x ∈ past, x.phase ≠ .leave ∧ x.id = id := by
  obtain ⟨c, hc, -⟩ := Option.bind_eq_some_iff.mp hid
  have hline := h.visit_mem_line (List.getElem?_eq_some_iff.mp hc).1
  have hordered := h.ordered
  rw [line, hpending] at hline hordered
  rcases List.mem_append.mp hline with hpast | hnext
  · obtain ⟨x, hx, hentry⟩ := List.mem_map.mp hpast
    rw [Event.entry] at hentry
    split at hentry
    · cases hentry
    · next hphase => exact ⟨x, hx, hphase, Entry.visit.inj hentry⟩
  · rcases List.mem_cons.mp hnext with heq | hrest
    · cases heq
    · have hbehind := (List.pairwise_cons.mp (List.pairwise_append.mp hordered).2.1).1 _ hrest
      exact absurd hid (hbehind.noChild _ _ rfl rfl)

/-- **The callbacks stay in level order**, also with one that ends the walk. -/
theorem levelOrder_snoc (h : Queued past s) (hrunning : Running past s)
    (hpending : s.pending = entry :: rest) (htakes : e.Takes s entry) (horder : LevelOrder past) :
    LevelOrder (past ++ [e]) := by
  have hline := htakes.line_eq past hpending
  have hwithin := Event.Within.of_takes htakes
  -- every earlier entry comes in order before the one that is taken up
  have hbefore : ∀ x ∈ past, InOrder s.outline x.entry e.entry := by
    intro x hx
    have hordered := h.ordered
    rw [hline, List.map_append, List.append_assoc, List.pairwise_append] at hordered
    exact hordered.2.2 _ (List.mem_map_of_mem hx) _ List.mem_cons_self
  have hsnoc : ∀ {R : Event N A β → Event N A β → Prop}, past.Pairwise R → (∀ x ∈ past, R x e) →
      (past ++ [e]).Pairwise R := fun hpast hlast =>
    List.pairwise_append.mpr ⟨hpast, List.pairwise_singleton _ _, fun x hx y hy =>
      List.mem_singleton.mp hy ▸ hlast x hx⟩
  refine ⟨hsnoc horder.rising fun x hx hx' he => ?_, ?_,
    hsnoc horder.noChildren fun x hx hx' he => ?_,
    hsnoc horder.beforeGrandchildren fun x hx he => ?_, ?_⟩
  · have hmem : x.id ∈ (past.filter (·.phase ≠ .leave)).map Event.id :=
      List.mem_map_of_mem (List.mem_filter.mpr ⟨hx, by simpa using hx'⟩)
    exact h.level _ _ _ _ (Nat.le_of_lt (h.visited_lt hpending htakes he hmem))
      ((hrunning.traced x hx).atDepth h.linked) (hwithin.atDepth h.linked)
  · intro before x hextends hphase id hid
    rcases List.prefix_concat_iff.mp hextends with heq | hearlier
    · obtain ⟨rfl, heq'⟩ := List.append_inj' heq rfl
      obtain rfl := List.singleton_inj.mp heq'
      rw [parent?_eq, htakes.outline] at hid
      have hleaving : s.pending = .leave x.id :: rest := by
        rw [hpending, ← htakes.entry, Event.entry_of_leave hphase]
      exact h.children_visited hleaving hid
    · exact horder.afterChildren before x hearlier hphase id hid
  · rw [hwithin.parent?_eq]
    exact (hbefore x hx).noChild _ _ (Event.entry_of_leave hx') (Event.entry_of_ne he)
  · rw [(hrunning.traced x hx).grandparent?_eq h.linked]
    have hid : x.entry.id = x.id := by
      rw [Event.entry]
      split <;> rfl
    rw [← hid]
    exact (hbefore x hx).noGrandchild _ (Event.entry_of_leave he)
  · rw [← filterMap_leave?_entry]
    have hleft : (((past ++ [e]).map Event.entry).filterMap Entry.leave?).Sublist
        ((past.filter Event.opens).map Event.id) := by
      rw [← h.leaves, hline, List.filterMap_append]
      exact List.sublist_append_left _ _
    have hopened : (past.filter Event.opens).Sublist (calls .enter (past ++ [e])) := by
      rw [calls_snoc, calls]
      refine (List.monotone_filter_right past fun o hopens => ?_).trans
        (List.sublist_append_left _ _)
      simp [(Event.opens_iff.mp hopens).1]
    exact hleft.trans (hopened.map _)

/-- The depth of what is discovered below a context. -/
theorem level_append (h : Queued past s) (hpending : s.pending = entry :: rest)
    (htakes : e.Takes s entry) (hphase : e.phase ≠ .leave) {added : List (N × Option Link)}
    (hadded : ∀ c ∈ added, ∃ location, c.2 = some ⟨e.id, location⟩) {i j a b : Nat} (hij : i ≤ j)
    (ha : AtDepth (s.outline ++ added) i a) (hb : AtDepth (s.outline ++ added) j b) : a ≤ b := by
  have hextends : s.outline <+: s.outline ++ added := List.prefix_append _ _
  have hid := (List.getElem?_eq_some_iff.mp htakes.here).1
  obtain ⟨d, hd⟩ := h.linked.exists_atDepth hid
  -- what is new hangs below `e`
  have hnew : ∀ {i a : Nat}, s.outline.length ≤ i → AtDepth (s.outline ++ added) i a →
      a = d + 1 := by
    intro i a hi ha
    have hlink : ∀ {c : N × Option Link}, (s.outline ++ added)[i]? = some c →
        ∃ location, c.2 = some ⟨e.id, location⟩ := by
      intro c hc
      rw [List.getElem?_append_right hi] at hc
      exact hadded c (List.mem_of_getElem? hc)
    cases ha with
    | root found =>
      obtain ⟨location, hlocation⟩ := hlink found
      cases hlocation
    | child found before above =>
      obtain ⟨location, hlocation⟩ := hlink found
      obtain rfl := Option.some.inj hlocation
      rw [above.unique (hd.of_isPrefix hextends)]
  rcases Nat.lt_or_ge j s.outline.length with hj | hj
  · exact h.level i j a b hij (ha.restrict hextends (Nat.lt_of_le_of_lt hij hj))
      (hb.restrict hextends hj)
  · rw [hnew hj hb]
    rcases Nat.lt_or_ge i s.outline.length with hi | hi
    · cases ha.restrict hextends hi with
      | root => exact Nat.zero_le _
      | @child _ a _ link found before above =>
        -- the parent of what was discovered earlier was opened earlier
        have hparent : parentIn s.outline i = some link.parent := by
          rw [parentIn, found]
          rfl
        have hlt := h.opened_lt hpending htakes hphase (h.opened i _ hparent)
        exact Nat.succ_le_succ (h.level _ _ _ _ (Nat.le_of_lt hlt) above hd)
    · exact Nat.le_of_eq (hnew hi ha)

/-- What is discovered below a context comes in order behind everything else. -/
theorem ordered_append (h : Queued past s) (hrunning : Running past s)
    (hpending : s.pending = entry :: rest) (htakes : e.Takes s entry) (hphase : e.phase ≠ .leave)
    {added : List (N × Option Link)} {ids : List Nat}
    (hlinked : BackLinked (s.outline ++ added))
    (hids : ∀ id ∈ ids, parentIn (s.outline ++ added) id = some e.id) :
    (line past s ++ (ids.map Entry.visit ++ [Entry.leave e.id])).Pairwise
      (InOrder (s.outline ++ added)) := by
  have hextends : s.outline <+: s.outline ++ added := List.prefix_append _ _
  have hparent : ∀ x ∈ line past s, parentIn (s.outline ++ added) x.id = parentIn s.outline x.id :=
    fun x hx => parentIn_of_isPrefix hextends (hrunning.line_lt x hx)
  have hgrandparent : ∀ x ∈ line past s,
      (parentIn (s.outline ++ added) x.id).bind (parentIn (s.outline ++ added)) =
        (parentIn s.outline x.id).bind (parentIn s.outline) :=
    fun x hx => grandparentIn_of_isPrefix h.linked hextends (hrunning.line_lt x hx)
  have hopened : ∀ {id : Nat}, id ∈ (past.filter Event.opens).map Event.id → id ≠ e.id :=
    fun hid => Nat.ne_of_lt (h.opened_lt hpending htakes hphase hid)
  -- first the old entries among themselves, then the new ones, then old before new
  refine List.pairwise_append.mpr ⟨?_, ?_, fun x hx y hy => ?_⟩
  · refine h.ordered.imp_of_mem fun {x y} hx hy hxy =>
      ⟨fun c id hleave hvisit => ?_, fun c hleave => ?_⟩
    · have hid : y.id = id := congrArg Entry.id hvisit
      rw [← hid, hparent y hy, hid]
      exact hxy.noChild c id hleave hvisit
    · rw [hgrandparent x hx]
      exact hxy.noGrandchild c hleave
  · refine List.pairwise_append.mpr ⟨InOrder.visits ids, List.pairwise_singleton _ _,
      fun x hx y hy => ?_⟩
    · obtain ⟨id, hid, rfl⟩ := List.mem_map.mp hx
      obtain rfl := List.mem_singleton.mp hy
      refine .before_leave fun heq => ?_
      rw [Entry.id, hids id hid] at heq
      exact absurd (hlinked.parentIn_lt heq) (Nat.lt_irrefl _)
  · rcases List.mem_append.mp hy with hy | hy
    · obtain ⟨id, hid, rfl⟩ := List.mem_map.mp hy
      refine .before_visit fun c hleave => ?_
      have hc : c ∈ (line past s).filterMap Entry.leave? :=
        List.mem_filterMap.mpr ⟨x, hx, by rw [hleave]; rfl⟩
      -- whatever is left earlier in the line was opened before `e`, so it is not the parent
      rw [h.leaves] at hc
      rw [hids id hid]
      exact fun heq => hopened hc (Option.some.inj heq).symm
    · obtain rfl := List.mem_singleton.mp hy
      refine .before_leave fun heq => ?_
      rw [hgrandparent x hx] at heq
      obtain ⟨p, -, hp⟩ := Option.bind_eq_some_iff.mp heq
      exact hopened (h.opened p _ hp) rfl

/-- A node is entered at its first context. -/
theorem earliest_snoc (h : Queued past s) (hrunning : Running past s)
    (hpending : s.pending = entry :: rest) (htakes : e.Takes s entry) :
    ∀ x ∈ past ++ [e], x.phase ≠ .leave → ∃ o ∈ past ++ [e], o.phase = .enter ∧
      identity o.first = identity x.first ∧ o.id ≤ x.id := by
  intro x hx hphase
  rcases List.mem_append.mp hx with hx | hx
  · obtain ⟨o, ho, hrest⟩ := h.earliest x hx hphase
    exact ⟨o, List.mem_append_left _ ho, hrest⟩
  · obtain rfl := List.mem_singleton.mp hx
    cases hp : x.phase with
    | enter => exact ⟨x, List.mem_append_right _ hx, hp, rfl, Nat.le_refl _⟩
    | leave => exact absurd hp hphase
    | backRef =>
      obtain ⟨o, ho, henter, hsame⟩ := hrunning.exists_enter (htakes.again hp)
      have hvisited : o.id ∈ (past.filter (·.phase ≠ .leave)).map Event.id :=
        List.mem_map_of_mem (List.mem_filter.mpr ⟨ho, by simp [henter]⟩)
      exact ⟨o, List.mem_append_left _ ho, henter, hsame,
        Nat.le_of_lt (h.visited_lt hpending htakes hphase hvisited)⟩

/-- **What steps preserve**, unless the walk is quit. -/
theorem step (h : Queued past s) (hmode : plan.mode = .breadthFirst) (hrunning : Running past s)
    (hpending : s.pending = entry :: rest) (htakes : e.Takes s entry)
    (hcontinues : Continues plan K { s with pending := rest } e (.ok s')) :
    Queued (past ++ [e]) s' ∨ s'.pending = [] ∧ e.outcome ≠ .ok .proceed := by
  have hline := htakes.line_eq past hpending
  have hearliest := h.earliest_snoc hrunning hpending htakes
  cases hcontinues with
  | ended unwilling _ _ pending => exact .inr ⟨pending, unwilling⟩
  | passed shut outline _ pending =>
    change s'.outline = s.outline at outline
    have hsame : line (past ++ [e]) s' = line past s := by
      rw [line, pending, hline]
    have hopened : (past ++ [e]).filter Event.opens = _ := filter_opens_snoc_shut shut
    left
    refine ⟨?_, ?_, ?_, ?_, ?_, ?_, hearliest⟩
    · rw [hsame, outline]
      exact h.visits
    · rw [hsame, hopened]
      exact h.leaves
    · rw [outline]
      exact h.linked
    · rw [outline, hopened]
      exact h.opened
    · rw [outline]
      exact h.level
    · rw [hsame, outline]
      exact h.ordered
  | @opened _ c opens _ _ outline _ pending =>
    let added : List (N × Option Link) :=
      (plan.below c).located.map fun p => (p.2, some ⟨e.id, p.1⟩)
    let ids := List.range' s.outline.length (plan.below c).flatten.length
    change s'.outline = s.outline ++ added at outline
    have hphase := e.ne_leave opens
    have hlength : added.length = (plan.below c).flatten.length := by
      rw [List.length_map, length_located]
    have hline' : line (past ++ [e]) s' =
        line past s ++ (ids.map Entry.visit ++ [Entry.leave e.id]) := by
      rw [line, pending, hmode, hline, List.append_assoc]
      rfl
    have hopened : ((past ++ [e]).filter Event.opens).map Event.id = _ := opened_snoc opens
    have hadded : ∀ c ∈ added, ∃ location, c.2 = some ⟨e.id, location⟩ := by
      intro c hc
      obtain ⟨p, -, rfl⟩ := List.mem_map.mp hc
      exact ⟨p.1, rfl⟩
    have hlinked : BackLinked (s.outline ++ added) := h.linked.append htakes.here hadded
    have hparent : ∀ id, s.outline.length ≤ id → id < (s.outline ++ added).length →
        parentIn (s.outline ++ added) id = some e.id := fun id hid hlt =>
      parentIn_append hadded hid hlt
    left
    refine ⟨?_, ?_, ?_, ?_, ?_, ?_, hearliest⟩
    · rw [hline', outline, List.filterMap_append, h.visits, filterMap_visit?_added,
        List.length_append, hlength, range_append_range']
    · rw [hline', hopened, List.filterMap_append, h.leaves, filterMap_leave?_added]
    · rw [outline]
      exact hlinked
    · intro id p hp
      rw [outline] at hp
      rw [hopened]
      rcases Nat.lt_or_ge id s.outline.length with hold | hnew
      · rw [parentIn_of_isPrefix (List.prefix_append _ _) hold] at hp
        exact List.mem_append_left _ (h.opened id p hp)
      · obtain ⟨_, hc, -⟩ := Option.bind_eq_some_iff.mp hp
        rw [hparent id hnew (List.getElem?_eq_some_iff.mp hc).1] at hp
        exact List.mem_append_right _ (List.mem_singleton.mpr (Option.some.inj hp).symm)
    · intro i j a b hij ha hb
      rw [outline] at ha hb
      exact h.level_append hpending htakes hphase hadded hij ha hb
    · rw [hline', outline]
      refine h.ordered_append hrunning hpending htakes hphase hlinked fun id hid => ?_
      obtain ⟨hge, hlt⟩ := List.mem_range'_1.mp hid
      exact hparent id hge (by rw [List.length_append, hlength]; exact hlt)

/-- A walk starts with its roots in the queue. -/
theorem start (plan : Plan N A β) (recording : Bool) (roots : List N) :
    Queued [] (Traversal.start plan recording roots) := by
  have hroot : ∀ {id : Nat} {n : N} {link : Option Link},
      (Traversal.start plan recording roots).outline[id]? = some (n, link) → link = none := by
    intro id n link hid
    rw [outline_start] at hid
    obtain ⟨root, -, heq⟩ := List.mem_map.mp (List.mem_of_getElem? hid)
    exact (Prod.mk.inj heq).2.symm
  have hnoParent : ∀ id, parentIn (Traversal.start plan recording roots).outline id = none := by
    intro id
    rw [parentIn]
    cases hid : (Traversal.start plan recording roots).outline[id]? with
    | none => rfl
    | some c => rw [Option.bind_some, hroot hid, Option.map_none]
  refine ⟨?_, ?_, fun id n link hid => ?_, fun id p hp => ?_, fun i j a b _ ha _ => ?_, ?_,
    fun _ hx => absurd hx List.not_mem_nil⟩
  · rw [line_start, outline_start, List.length_map, List.filterMap_map]
    exact List.filterMap_some
  · rw [line_start, List.filterMap_map]
    exact List.filterMap_none _
  · cases hroot hid
  · rw [hnoParent] at hp
    cases hp
  · cases ha with
    | root => exact Nat.zero_le _
    | child found => cases hroot found
  · rw [line_start]
    exact InOrder.visits _

end Queued

/-! ### Shortest ways -/

section Shortest

variable {plan : Plan N A β} {nodes roots : List N} {es : List (Event N A β)} {s : State N A β}

/-- What is discovered at a depth is reached by a way of that length. -/
theorem Explored.reach_of_atDepth (h : Explored plan roots es s) {id d : Nat}
    (hd : AtDepth s.outline id d) {n : N} {link : Option Link}
    (hid : s.outline[id]? = some (n, link)) : plan.Reach roots d n := by
  induction hd generalizing n link with
  | root found =>
    obtain ⟨rfl, rfl⟩ := Prod.mk.inj (Option.some.inj (found.symm.trans hid))
    exact .root (h.belongs _ _ _ found)
  | child found _ _ ih =>
    obtain ⟨rfl, rfl⟩ := Prod.mk.inj (Option.some.inj (found.symm.trans hid))
    obtain ⟨-, p, up, hp, hmem⟩ := h.belongs _ _ _ found
    exact .child (ih hp) hmem

variable (hrunning : Running es s) (hqueued : Queued es s) (hexplored : Explored plan roots es s)
  (hpending : s.pending = [])
  (hclosed : ∀ n ∈ nodes, ∀ m ∈ (plan.children n).flatten, m ∈ nodes)
  (hroots : ∀ root ∈ roots, root ∈ nodes)
  (hidentity : ∀ a ∈ nodes, ∀ b ∈ nodes, identity a = identity b → a = b)

include hrunning hqueued hexplored hpending hclosed hroots hidentity

/-- At the end every node that was discovered has been entered at no greater depth. -/
theorem exists_enter_depth_le {id d : Nat} (hd : AtDepth s.outline id d) {n : N}
    {link : Option Link} (hid : s.outline[id]? = some (n, link)) :
    ∃ o ∈ es, o.phase = .enter ∧ o.first = n ∧ o.depth ≤ d := by
  obtain ⟨x, hx, hphase, rfl, rfl⟩ := hrunning.exists_visit hpending hid
  obtain ⟨o, ho, henter, hsame, hle⟩ := hqueued.earliest x hx hphase
  have hmem : ∀ y ∈ es, y.first ∈ nodes := by
    intro y hy
    obtain ⟨d, hd⟩ := hexplored.reach (hrunning.traced y hy).found
    exact hd.mem hclosed hroots
  refine ⟨o, ho, henter, hidentity _ (hmem o ho) _ (hmem x hx) hsame, ?_⟩
  exact hqueued.level _ _ _ _ hle ((hrunning.traced o ho).atDepth hqueued.linked) hd

/-- Every way to a node is at least as long as the one by which it was entered. -/
theorem exists_enter_of_reach {d : Nat} {n : N} (h : plan.Reach roots d n) :
    ∃ o ∈ es, o.phase = .enter ∧ o.first = n ∧ o.depth ≤ d := by
  induction h with
  | root mem =>
    obtain ⟨id, hid⟩ := hexplored.rooted _ mem
    exact exists_enter_depth_le hrunning hqueued hexplored hpending hclosed hroots hidentity
      (.root hid) hid
  | child _ mem ih =>
    obtain ⟨o, ho, henter, rfl, hle⟩ := ih
    obtain ⟨id, location, hid⟩ := hexplored.spread o ho henter _ mem
    have hbelow : AtDepth s.outline id (o.depth + 1) :=
      .child hid (hqueued.linked id _ _ hid) ((hrunning.traced o ho).atDepth hqueued.linked)
    obtain ⟨o', ho', henter', hfirst, hle'⟩ := exists_enter_depth_le hrunning hqueued hexplored
      hpending hclosed hroots hidentity hbelow hid
    exact ⟨o', ho', henter', hfirst, Nat.le_trans hle' (Nat.succ_le_succ hle)⟩

/-- **Every node is entered at its distance from the roots.** -/
theorem isLeast_depth (hexact : Exact es) {o : Event N A β} (ho : o ∈ calls .enter es) :
    IsLeast {d | plan.Reach roots d o.first} o.depth := by
  have hmem := (List.mem_filter.mp ho).1
  have hwithin := hrunning.traced o hmem
  refine ⟨hexplored.reach_of_atDepth (hwithin.atDepth hqueued.linked) hwithin.found,
    fun d hd => ?_⟩
  obtain ⟨o', ho', henter, hfirst, hle⟩ := exists_enter_of_reach hrunning hqueued hexplored hpending
    hclosed hroots hidentity hd
  have hsame : o' = o := List.inj_on_of_nodup_map hexact.entered
    (List.mem_filter.mpr ⟨ho', by simpa using henter⟩) ho (congrArg identity hfirst)
  rw [← hsame]
  exact hle

end Shortest

/-! ### Whole walks -/

variable {plan : Plan N A β} {visitor : SequentialVisitor σ N A β} {nodes roots : List N}

/-- What a breadth-first walk preserves, whatever the visitor does. -/
theorem preserved_levelOrder (hmode : plan.mode = .breadthFirst) :
    Preserved plan (fun _ _ _ => True) (fun _ => True)
      (fun past s => Running past s ∧ Queued past s ∨
        s.pending = [] ∧ ∃ x ∈ past, x.outcome ≠ .ok .proceed)
      LevelOrder where
  known hI entry hentry := by
    rcases hI with ⟨hrunning, -⟩ | ⟨hnil, -⟩
    · exact hrunning.known entry hentry
    · exact absurd (hnil ▸ hentry) List.not_mem_nil
  call hI hpending htakes _ horder := by
    obtain ⟨hrunning, hqueued⟩ := hI.resolve_right (by rw [hpending]; nofun)
    exact hqueued.levelOrder_snoc hrunning hpending htakes horder
  step {past s s' entry rest e} hI hpending htakes _ hcontinues := by
    obtain ⟨hrunning, hqueued⟩ := hI.resolve_right (by rw [hpending]; nofun)
    have hquit : s'.pending = [] ∧ e.outcome ≠ .ok .proceed →
        s'.pending = [] ∧ ∃ x ∈ past ++ [e], x.outcome ≠ .ok .proceed := fun h =>
      ⟨h.1, e, List.mem_append_right _ List.mem_cons_self, h.2⟩
    rcases hrunning.step hpending htakes hcontinues with hrunning' | h
    · rcases hqueued.step hmode hrunning hpending htakes hcontinues with hqueued' | h
      · exact .inl ⟨hrunning', hqueued'⟩
      · exact .inr (hquit h)
    · exact .inr (hquit h)

variable [DecidableEq κ]

theorem upholds_true (plan : Plan N A β) (visitor : SequentialVisitor σ N A β) :
    Upholds plan visitor (fun _ _ _ => True) fun _ => True where
  requests _ _ := (Program.Requests.of_true _).imp fun _ _ _ _ _ _ => trivial
  children _ _ _ := trivial
  outcomes _ _ := ends_true _

/-- Every breadth-first walk is in level order, and its queue has been kept until it was quit. -/
theorem callbacks_levelOrder (hmode : plan.mode = .breadthFirst)
    (visitor : SequentialVisitor σ N A β) (recording : Bool) (limit : Nat) (roots : List N)
    (own : σ) :
    LevelOrder (callbacks plan visitor recording limit roots own) ∧
      Concludes (fun s => Running (callbacks plan visitor recording limit roots own) s ∧
          Queued (callbacks plan visitor recording limit roots own) s ∨
          s.pending = [] ∧
            ∃ x ∈ callbacks plan visitor recording limit roots own, x.outcome ≠ .ok .proceed)
        (callbacks plan visitor recording limit roots own) limit
        ((walk plan visitor recording limit roots).runWith own).1 := by
  have hempty : LevelOrder ([] : List (Event N A β)) :=
    ⟨.nil, fun before e h => absurd (List.prefix_nil.mp h) (by simp), .nil, .nil, .slnil⟩
  exact events_invariant (upholds_true plan visitor) (preserved_levelOrder hmode) limit own
    (fun _ _ _ => trivial) hempty
    (.inl ⟨Running.start plan recording roots, Queued.start plan recording roots⟩)

/-- **Breadth-first walks go level by level**, whatever the visitor does and however the walk ends.
The callbacks are those that a visitor with a log writes down. Over a graph with finitely many
nodes, a visitor that neither edits nor passes anything over enters every node that can be reached,
at its distance from the roots. -/
theorem walk_levelOrder (hmode : plan.mode = .breadthFirst) (visitor : SequentialVisitor σ N A β)
    (recording : Bool) (limit : Nat) (roots : List N) (own : σ) :
    ((walk plan visitor.logging recording limit roots).runWith (own, [])).2.2 =
        (callbacks plan visitor recording limit roots own).map (fun e => (e.phase, e.seen)) ∧
      LevelOrder (callbacks plan visitor recording limit roots own) ∧
      ∀ nodes : List N, (∀ n ∈ nodes, ∀ m ∈ (plan.children n).flatten, m ∈ nodes) →
        (∀ root ∈ roots, root ∈ nodes) →
        (∀ a ∈ nodes, ∀ b ∈ nodes, identity a = identity b → a = b) →
        visitor.Requests Request.MakesNotes → Proceeds visitor →
        plan.budget nodes roots < limit →
        (∃ s own', (walk plan visitor recording limit roots).runWith own = (.ok s, own')) ∧
          (∀ d n, plan.Reach roots d n →
            ∃ e ∈ calls .enter (callbacks plan visitor recording limit roots own), e.first = n) ∧
          ∀ e ∈ calls .enter (callbacks plan visitor recording limit roots own),
            IsLeast {d | plan.Reach roots d e.first} e.depth := by
  obtain ⟨horder, hend⟩ := callbacks_levelOrder hmode visitor recording limit roots own
  refine ⟨walk_logging plan visitor recording limit roots own, horder,
    fun nodes hclosed hroots hidentity hnotes hproceeds hlimit => ?_⟩
  obtain ⟨s, own', hrun, hpending, hrunning, hexplored⟩ :=
    explored_of_walk hclosed hroots hnotes hproceeds recording hlimit own
  rw [hrun] at hend
  have hqueued : Queued (callbacks plan visitor recording limit roots own) s := by
    rcases hend.1 with ⟨-, hqueued⟩ | ⟨-, x, hx, hunwilling⟩
    · exact hqueued
    · exact absurd (hexplored.willing x hx) hunwilling
  have hexact := (callbacks_exact hclosed hroots (fun phase own =>
    (hnotes phase own).imp fun q hq => hq.staysIn _) recording limit own).1
  refine ⟨⟨s, own', hrun⟩, fun d n hn => ?_, fun e he =>
    isLeast_depth hrunning hqueued hexplored hpending hclosed hroots hidentity hexact he⟩
  obtain ⟨o, ho, henter, hfirst, -⟩ := exists_enter_of_reach hrunning hqueued hexplored hpending
    hclosed hroots hidentity hn
  exact ⟨o, List.mem_filter.mpr ⟨ho, by simpa using henter⟩, hfirst⟩

/-! ### A graph with a detour -/

open Arborist.Graph

/-- A node that is reached at once and by a detour, and leads back to the root. -/
def detourPlan : Plan Node Nat (fun _ : Unit => Nat) where
  mode := .breadthFirst
  children := Table.children
    { entries := [("a", ⟨[(.unnamed, ["b", "d"])]⟩), ("b", ⟨[(.unnamed, ["c"])]⟩),
        ("c", ⟨[(.named "x", ["d"])]⟩), ("d", ⟨[(.unnamed, ["a"])]⟩)] }
  initial := 0

theorem detourPlan_closed (n : Node)
    (hn : n ∈ [Node.listed "a", .listed "b", .listed "c", .listed "d"]) :
    ∀ m ∈ (detourPlan.children n).flatten,
      m ∈ [Node.listed "a", .listed "b", .listed "c", .listed "d"] := by
  simp only [List.mem_cons, List.not_mem_nil, or_false] at hn
  rcases hn with rfl | rfl | rfl | rfl
  · change ∀ m ∈ [Node.listed "b", .listed "d"], _
    simp
  · change ∀ m ∈ [Node.listed "c"], _
    simp
  · change ∀ m ∈ [Node.listed "d"], _
    simp
  · change ∀ m ∈ [Node.listed "a"], _
    simp

/-- The walk over the ring is in level order also where nodes are changed and deleted, and the node
with the detour is entered at its distance. -/
theorem walk_levelOrder_detour :
    LevelOrder (callbacks wideRingPlan (ringVisitor.comap Cursor.sight) false 20 [.listed "a"] ()) ∧
    (∀ e ∈ calls .enter (callbacks detourPlan tallyVisitor true 40 [.listed "a"] ()),
      IsLeast {d | detourPlan.Reach [.listed "a"] d e.first} e.depth) ∧
    (calls .enter (callbacks detourPlan tallyVisitor true 40 [.listed "a"] ())).map
      (fun e => (e.first.label, e.depth)) = [("a", 0), ("b", 1), ("d", 1), ("c", 2)] := by
  have hbudget : detourPlan.budget [.listed "a", .listed "b", .listed "c", .listed "d"]
      [.listed "a"] < 40 :=
    (by decide : 1 + (5 + 1) * 4 < 40)
  have hlisted : ∀ n ∈ [Node.listed "a", .listed "b", .listed "c", .listed "d"], Listed n := by
    simp [Listed]
  have hring := walk_levelOrder (rfl : wideRingPlan.mode = .breadthFirst)
    (ringVisitor.comap Cursor.sight) false 20 [.listed "a"] ()
  have hdetour := walk_levelOrder (rfl : detourPlan.mode = .breadthFirst) tallyVisitor true 40
    [.listed "a"] ()
  have hleast := hdetour.2.2 _ detourPlan_closed (by simp)
    (fun a ha b hb => (hlisted a ha).eq_of_identity_eq (hlisted b hb)) tallyVisitor_makesNotes
    tallyVisitor_proceeds hbudget
  exact ⟨hring.2.1, hleast.2.2, by decide +kernel⟩

end Traversal

end Arborist
