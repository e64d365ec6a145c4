import Arborist.Proofs.Callbacks

/-!
# Walks are exact

On a graph with finitely many nodes every walk ends, in either order and for every visitor that goes
on with nodes of the graph only, and its callbacks are **exact**: no node is entered twice, every
context is reached once and left at most once, and only after it was entered and opened
(`walk_exact`). A walk that neither edits nor passes anything over is also **complete**: it enters
and leaves every node that can be reached, and its back references are all other ways to them.

* `Running` is the invariant that all of this follows from. It looks at the **line** of entries,
  those that have been taken up followed by the pending ones: every context is visited at one place
  of it, and every opened one is left at one place.
* `Plan.budget` bounds the number of callbacks. A node that is entered may go on as another one, so
  every new identity may bring as many entries as any node has children.
* `Explored` says, for a walk that changes nothing, what has been discovered so far.
-/

namespace Arborist.Traversal

variable {σ N A κ : Type} {β : κ → Type} [Identified N]

/-- The callbacks of one phase. -/
def calls (phase : Phase) (es : List (Event N A β)) : List (Event N A β) :=
  es.filter (·.phase = phase)

/-- The callbacks of a walk are **exact**. -/
structure Exact (es : List (Event N A β)) : Prop where
  /-- No two contexts whose nodes had one identity when they were first met are entered. -/
  entered : ((calls .enter es).map fun e => identity e.first).Nodup
  /-- Every context is reached by at most one callback that enters it or meets it again. -/
  reached : ((es.filter (·.phase ≠ .leave)).map Event.id).Nodup
  /-- Every context is left at most once. -/
  left : ((calls .leave es).map Event.id).Nodup
  /-- A context is left only after it was entered and the callback said to go on. -/
  opened : ∀ (before : List (Event N A β)) (e : Event N A β), before ++ [e] <+: es →
    e.phase = .leave → ∃ o ∈ before, o.id = e.id ∧ o.phase = .enter ∧ o.outcome = .ok .proceed

/-! ### The line of entries -/

/-- The context that a pending entry leaves, if it leaves one. -/
def Entry.leave? : Entry → Option Nat
  | .visit _ => none
  | .leave id => some id

/-- Visits leave nothing. -/
theorem filterMap_leave?_visits (ids : List Nat) (pending : List Entry) :
    (ids.map Entry.visit ++ pending).filterMap Entry.leave? = pending.filterMap Entry.leave? := by
  have hnone : (ids.map Entry.visit).filterMap Entry.leave? = [] := by
    rw [List.filterMap_map]
    exact List.filterMap_none _
  rw [List.filterMap_append, hnone, List.nil_append]

theorem filterMap_leave?_added (id : Nat) (ids : List Nat) :
    (ids.map Entry.visit ++ [Entry.leave id]).filterMap Entry.leave? = [id] :=
  filterMap_leave?_visits ids [.leave id]

/-- One leaving is scheduled, whatever the order. -/
theorem Mode.filterMap_leave?_schedule (mode : Mode) (id : Nat) (ids : List Nat)
    (pending : List Entry) : ((mode.schedule id ids pending).filterMap Entry.leave?).Perm
      (pending.filterMap Entry.leave? ++ [id]) := by
  cases mode with
  | depthFirst =>
    rw [schedule, List.filterMap_append, filterMap_leave?_added]
    exact List.perm_append_comm
  | breadthFirst => rw [schedule, List.filterMap_append, filterMap_leave?_added]

/-- The entries of a walk, in the order in which they are taken up: those of the callbacks so far,
and the pending ones. -/
def line (past : List (Event N A β)) (s : State N A β) : List Entry :=
  past.map Event.entry ++ s.pending

/-- A walk starts with contexts of its roots. -/
theorem outline_start (plan : Plan N A β) (recording : Bool) (roots : List N) :
    (start plan recording roots).outline = roots.map fun root => (root, none) := by
  rw [State.outline, Arena.outline, start, List.map_map]
  rfl

/-- All of the roots are to be visited. -/
theorem line_start (plan : Plan N A β) (recording : Bool) (roots : List N) :
    line [] (start plan recording roots) = (List.range roots.length).map Entry.visit := rfl

theorem Event.opens_iff {e : Event N A β} :
    e.opens = true ↔ e.phase = .enter ∧ e.outcome = .ok .proceed := by
  rw [Event.opens]
  split
  · next hphase houtcome => simp [hphase, houtcome]
  · next hother => exact ⟨fun h => (Bool.false_ne_true h).elim, fun h => (hother h.1 h.2).elim⟩

theorem Event.ne_leave (e : Event N A β) (h : e.opens = true) : e.phase ≠ .leave := by
  rw [(opens_iff.mp h).1]
  decide

section Snoc

variable {es : List (Event N A β)} {e : Event N A β}

theorem calls_snoc (phase : Phase) (es : List (Event N A β)) (e : Event N A β) :
    calls phase (es ++ [e]) = calls phase es ++ if e.phase = phase then [e] else [] := by
  rw [calls, calls, List.filter_append]
  by_cases hphase : e.phase = phase <;> simp [hphase]

theorem opened_snoc (h : e.opens = true) :
    ((es ++ [e]).filter Event.opens).map Event.id =
      (es.filter Event.opens).map Event.id ++ [e.id] := by
  rw [List.filter_append, List.filter_cons_of_pos h, List.filter_nil, List.map_append,
    List.map_singleton]

theorem filter_opens_snoc_shut (h : e.opens = false) :
    (es ++ [e]).filter Event.opens = es.filter Event.opens := by
  rw [List.filter_append, List.filter_cons_of_neg (by simp [h]), List.filter_nil, List.append_nil]

end Snoc

theorem filterMap_visit?_entry (es : List (Event N A β)) :
    (es.map Event.entry).filterMap Entry.visit? =
      (es.filter (·.phase ≠ .leave)).map Event.id := by
  induction es with
  | nil => rfl
  | cons e es ih =>
    by_cases hphase : e.phase = .leave <;>
      simpa [List.filterMap_cons, Event.entry, Entry.visit?, hphase] using ih

theorem filterMap_leave?_entry (es : List (Event N A β)) :
    (es.map Event.entry).filterMap Entry.leave? = (calls .leave es).map Event.id := by
  induction es with
  | nil => rfl
  | cons e es ih =>
    rw [calls] at ih ⊢
    by_cases hphase : e.phase = .leave <;>
      simpa [List.filterMap_cons, Event.entry, Entry.leave?, hphase] using ih

/-- Whatever was opened has been visited. -/
theorem opened_sublist (es : List (Event N A β)) : ((es.filter Event.opens).map Event.id).Sublist
    ((es.filter (·.phase ≠ .leave)).map Event.id) := by
  refine (List.monotone_filter_right es fun e hopens => ?_).map _
  simp [(Event.opens_iff.mp hopens).1]

/-! ### The invariant -/

omit [Identified N] in
/-- What is looked up in a longer list is the same. -/
theorem getElem?_of_isPrefix {α : Type} {l l' : List α} {i : Nat} {a : α} (h : l <+: l')
    (ha : l[i]? = some a) : l'[i]? = some a := by
  obtain ⟨more, rfl⟩ := h
  rw [List.getElem?_append_left (List.getElem?_eq_some_iff.mp ha).1, ha]

/-- The contexts of an outline are as a callback **saw** them, and there may be more. -/
structure Event.Within (e : Event N A β) (outline : List (N × Option Link)) : Prop where
  seen : e.seen.arena.outline <+: outline
  here : e.seen.arena.outline[e.id]? = some (e.first, e.seen.here.link)

namespace Event.Within

variable {e : Event N A β} {outline outline' : List (N × Option Link)}

theorem found (h : e.Within outline) : outline[e.id]? = some (e.first, e.seen.here.link) :=
  getElem?_of_isPrefix h.seen h.here

theorem mono (h : e.Within outline) (hextends : outline <+: outline') : e.Within outline' :=
  ⟨h.seen.trans hextends, h.here⟩

theorem of_takes {s : State N A β} {entry : Entry} (h : e.Takes s entry) : e.Within s.outline :=
  ⟨h.outline ▸ List.prefix_refl _, h.outline ▸ h.here⟩

end Event.Within

/-- What holds of a walk that has not been quit, and of its callbacks so far. -/
structure Running (past : List (Event N A β)) (s : State N A β) : Prop where
  /-- Every context is visited once. -/
  visits : ((line past s).filterMap Entry.visit?).Perm (List.range s.outline.length)
  /-- Every context that was opened is left once. -/
  leaves : ((line past s).filterMap Entry.leave?).Perm ((past.filter Event.opens).map Event.id)
  visited : s.visited = ((calls .enter past).map fun e => identity e.first).reverse
  new : s.visited.Nodup
  traced : ∀ x ∈ past, x.Within s.outline
  met : ∀ x ∈ past, x.phase ≠ .leave → identity x.first ∈ s.visited

variable {plan : Plan N A β} {visitor : SequentialVisitor σ N A β} {entry : Entry}
  {rest : List Entry} {past : List (Event N A β)} {e : Event N A β} {s s' : State N A β}
  {K : N → N → Bool → Prop}

theorem Continues.outline_isPrefix {s' : State N A β} (h : Continues plan K s e (.ok s')) :
    s.outline <+: s'.outline := by
  cases h with
  | ended _ outline _ _ => rw [outline]
  | passed _ outline _ _ => rw [outline]
  | opened _ _ _ outline _ _ =>
    rw [outline]
    exact List.prefix_append _ _

theorem Continues.visited_eq {s' : State N A β} (h : Continues plan K s e (.ok s')) :
    s'.visited = e.marks s.visited := by
  cases h <;> assumption

theorem Event.subset_marks (e : Event N A β) (visited : List (Identity N)) :
    visited ⊆ e.marks visited := by
  rw [Event.marks]
  split
  · exact List.subset_cons_self _ _
  · exact List.Subset.refl _

theorem range_append_range' (n m : Nat) : List.range n ++ List.range' n m = List.range (n + m) := by
  rw [List.range_eq_range', List.range_eq_range', ← List.range'_append_1, Nat.zero_add]

/-- An entry goes over from what is pending to what was taken up. -/
theorem Event.Takes.line_eq (h : e.Takes s entry) (past : List (Event N A β))
    (hpending : s.pending = entry :: rest) :
    line past s = (past ++ [e]).map Event.entry ++ rest := by
  rw [line, hpending, List.map_append, List.map_singleton, h.entry, List.append_assoc]
  rfl

namespace Running

theorem visits_nodup (h : Running past s) : ((line past s).filterMap Entry.visit?).Nodup :=
  h.visits.nodup_iff.mpr List.nodup_range

theorem leaves_nodup (h : Running past s) : ((line past s).filterMap Entry.leave?).Nodup := by
  refine h.leaves.nodup_iff.mpr ((opened_sublist past).nodup ?_)
  rw [← filterMap_visit?_entry]
  refine h.visits_nodup.sublist ?_
  rw [line, List.filterMap_append]
  exact List.sublist_append_left _ _

/-- What was opened is the place of a context. -/
theorem opened_lt (h : Running past s) {id : Nat}
    (hid : id ∈ (past.filter Event.opens).map Event.id) : id < s.outline.length := by
  have hvisit := (opened_sublist past).subset hid
  rw [← filterMap_visit?_entry] at hvisit
  refine List.mem_range.mp (h.visits.mem_iff.mp ?_)
  rw [line, List.filterMap_append]
  exact List.mem_append_left _ hvisit

/-- All entries are about contexts that are known. -/
theorem line_lt (h : Running past s) : ∀ entry ∈ line past s, entry.id < s.outline.length := by
  intro entry hline
  cases entry with
  | visit id =>
    exact List.mem_range.mp (h.visits.mem_iff.mp (List.mem_filterMap.mpr ⟨_, hline, rfl⟩))
  | leave id => exact h.opened_lt (h.leaves.mem_iff.mp (List.mem_filterMap.mpr ⟨_, hline, rfl⟩))

theorem known (h : Running past s) : ∀ entry ∈ s.pending, entry.id < s.outline.length :=
  fun entry hentry => h.line_lt entry (List.mem_append_right _ hentry)

/-- **What steps preserve**, unless the walk is quit. -/
theorem step (h : Running past s) (hpending : s.pending = entry :: rest) (htakes : e.Takes s entry)
    (hcontinues : Continues plan K { s with pending := rest } e (.ok s')) :
    Running (past ++ [e]) s' ∨ s'.pending = [] ∧ e.outcome ≠ .ok .proceed := by
  have hextends : s.outline <+: s'.outline := hcontinues.outline_isPrefix
  have hmarks : s'.visited = e.marks s.visited := hcontinues.visited_eq
  have hline := htakes.line_eq past hpending
  have hvisited : s'.visited =
      ((calls .enter (past ++ [e])).map fun e => identity e.first).reverse := by
    rw [hmarks, Event.marks, h.visited, calls_snoc]
    split
    · next hphase => simp
    · next hphase => simp
  have hnew : s'.visited.Nodup := by
    rw [hmarks, Event.marks]
    split
    · next hphase => exact List.nodup_cons.mpr ⟨htakes.new hphase, h.new⟩
    · exact h.new
  have htraced : ∀ x ∈ past ++ [e], x.Within s'.outline := by
    intro x hx
    rcases List.mem_append.mp hx with hx | hx
    · exact (h.traced x hx).mono hextends
    · obtain rfl := List.mem_singleton.mp hx
      exact (Event.Within.of_takes htakes).mono hextends
  have hmet : ∀ x ∈ past ++ [e], x.phase ≠ .leave → identity x.first ∈ s'.visited := by
    intro x hx hphase
    rw [hmarks]
    rcases List.mem_append.mp hx with hx | hx
    · exact e.subset_marks _ (h.met x hx hphase)
    · obtain rfl := List.mem_singleton.mp hx
      cases hp : x.phase with
      | enter =>
        rw [Event.marks, if_pos hp]
        exact List.mem_cons_self
      | backRef => exact x.subset_marks _ (htakes.again hp)
      | leave => exact absurd hp hphase
  cases hcontinues with
  | ended unwilling _ _ pending => exact .inr ⟨pending, unwilling⟩
  | passed shut outline _ pending =>
    have hsame : line (past ++ [e]) s' = line past s := by
      rw [line, pending, hline]
    refine .inl ⟨?_, ?_, hvisited, hnew, htraced, hmet⟩
    · rw [hsame, outline]
      exact h.visits
    · rw [hsame, filter_opens_snoc_shut shut]
      exact h.leaves
  | @opened _ c opens _ _ outline _ pending =>
    -- both modes add the same entries: a visit of each new context, and the leaving of this one
    refine .inl ⟨?_, ?_, hvisited, hnew, htraced, hmet⟩
    · have hold := h.visits
      rw [hline, List.filterMap_append] at hold
      rw [line, pending, List.filterMap_append, outline, List.length_append, List.length_map,
        length_located]
      have hadded := (Mode.filterMap_schedule plan.mode e.id
        (List.range' s.outline.length (plan.below c).flatten.length) rest).trans
        List.perm_append_comm
      refine (hadded.append_left _).trans ?_
      rw [← List.append_assoc, ← range_append_range']
      exact hold.append_right _
    · have hold := h.leaves
      rw [hline, List.filterMap_append] at hold
      rw [line, pending, List.filterMap_append, opened_snoc opens]
      have hadded := Mode.filterMap_leave?_schedule plan.mode e.id
        (List.range' s.outline.length (plan.below c).flatten.length) rest
      refine (hadded.append_left _).trans ?_
      rw [← List.append_assoc]
      exact hold.append_right _

/-- A walk starts with the contexts of its roots, all of them to be visited. -/
theorem start (plan : Plan N A β) (recording : Bool) (roots : List N) :
    Running [] (Traversal.start plan recording roots) where
  visits := by
    rw [outline_start, List.length_map, line_start, List.filterMap_map]
    exact List.Perm.of_eq List.filterMap_some
  leaves := by
    rw [line_start, List.filterMap_map]
    exact List.Perm.of_eq (List.filterMap_none _)
  visited := rfl
  new := List.nodup_nil
  traced := fun _ hx => absurd hx List.not_mem_nil
  met := fun _ hx => absurd hx List.not_mem_nil

/-- **The callbacks stay exact**, also with one that ends the walk. -/
theorem exact_snoc (h : Running past s) (hpending : s.pending = entry :: rest)
    (htakes : e.Takes s entry) (hexact : Exact past) : Exact (past ++ [e]) := by
  have hline := htakes.line_eq past hpending
  have htaken : ((past ++ [e]).map Event.entry).Sublist (line past s) := by
    rw [hline]
    exact List.sublist_append_left _ _
  refine ⟨?_, ?_, ?_, fun before x hbefore hphase => ?_⟩
  · rw [calls_snoc]
    by_cases hphase : e.phase = .enter
    · have hnot : identity e.first ∉ (calls .enter past).map fun e => identity e.first := by
        rw [← List.mem_reverse, ← h.visited]
        exact htakes.new hphase
      rw [if_pos hphase, List.map_append, List.map_singleton]
      exact List.nodup_append.mpr ⟨hexact.entered, List.nodup_singleton _, by
        rintro i hi j hj rfl
        exact hnot (List.mem_singleton.mp hj ▸ hi)⟩
    · rw [if_neg hphase, List.append_nil]
      exact hexact.entered
  · rw [← filterMap_visit?_entry]
    exact h.visits_nodup.sublist (htaken.filterMap _)
  · rw [← filterMap_leave?_entry]
    exact h.leaves_nodup.sublist (htaken.filterMap _)
  · rcases List.prefix_concat_iff.mp hbefore with heq | hearlier
    · obtain ⟨rfl, heq'⟩ := List.append_inj' heq rfl
      obtain rfl := List.singleton_inj.mp heq'
      have hleave : x.id ∈ (line before s).filterMap Entry.leave? := by
        rw [hline, List.filterMap_append, filterMap_leave?_entry]
        refine List.mem_append_left _ (List.mem_map_of_mem (List.mem_filter.mpr ⟨?_, ?_⟩))
        · exact List.mem_append_right _ List.mem_cons_self
        · simpa using hphase
      obtain ⟨o, ho, hid⟩ := List.mem_map.mp (h.leaves.mem_iff.mp hleave)
      obtain ⟨hmem, hopens⟩ := List.mem_filter.mp ho
      exact ⟨o, hmem, hid, Event.opens_iff.mp hopens⟩
    · exact hexact.opened before x hearlier hphase

end Running

/-! ### Ends -/

/-- The number of all children in a graph. -/
def Plan.edges (plan : Plan N A β) (nodes : List N) : Nat :=
  (nodes.map fun n => (plan.children n).flatten.length).sum

/-- A **bound** on the number of callbacks of a walk over a graph: the roots, and for each node that
is entered the children of any node and the leaving. -/
def Plan.budget (plan : Plan N A β) (nodes roots : List N) : Nat :=
  roots.length + (plan.edges nodes + 1) * nodes.length

omit [Identified N] in
theorem Plan.length_below_le {nodes : List N} {c : Context N A β} (hc : c.node ∈ nodes) :
    (plan.below c).flatten.length ≤ plan.edges nodes := by
  rw [Plan.below]
  split
  · exact Nat.zero_le _
  · exact List.le_sum_of_mem (List.mem_map_of_mem hc)

/-- A walk has not come to the end of its **budget**: every callback that was made and every pending
entry is paid for, and so is what the nodes that were not entered yet may bring. -/
def Affords (plan : Plan N A β) (nodes roots : List N) (past : List (Event N A β))
    (s : State N A β) : Prop :=
  past.length + s.pending.length + (plan.edges nodes + 1) * unmet (nodes.map identity) s.visited ≤
    plan.budget nodes roots

variable {nodes roots : List N}

theorem Affords.start (recording : Bool) :
    Affords plan nodes roots [] (Traversal.start plan recording roots) := by
  have hpending : (Traversal.start plan recording roots).pending.length = roots.length := by
    simp [Traversal.start]
  have hunmet : unmet (nodes.map identity) (Traversal.start plan recording roots).visited ≤
      nodes.length := by
    refine Nat.le_trans List.countP_le_length ?_
    rw [List.length_map]
  rw [Affords, hpending, Plan.budget, List.length_nil, Nat.zero_add]
  exact Nat.add_le_add_left (Nat.mul_le_mul_left _ hunmet) _

theorem Affords.step (h : Affords plan nodes roots past s) (hpending : s.pending = entry :: rest)
    (htakes : e.Takes s entry)
    (hcontinues : Continues plan (fun first node _ => first ∈ nodes ∧ node ∈ nodes)
      { s with pending := rest } e (.ok s')) :
    Affords plan nodes roots (past ++ [e]) s' := by
  have hunmet : unmet (nodes.map identity) s'.visited ≤ unmet (nodes.map identity) s.visited := by
    rw [hcontinues.visited_eq]
    exact unmet_le (e.subset_marks _)
  have hmul := Nat.mul_le_mul_left (plan.edges nodes + 1) hunmet
  rw [Affords, hpending, List.length_cons] at h
  rw [Affords, List.length_append, List.length_singleton]
  cases hcontinues with
  | ended _ _ _ pending =>
    rw [pending, List.length_nil]
    omega
  | passed _ _ _ pending =>
    rw [pending]
    dsimp only
    omega
  | @opened _ c opens meets first _ visited pending =>
    -- the identity that is entered for the first time pays for the entries that are added
    have hphase := (Event.opens_iff.mp opens).1
    have hfewer : unmet (nodes.map identity) s'.visited < unmet (nodes.map identity) s.visited := by
      rw [visited, Event.marks, if_pos hphase]
      refine unmet_cons_lt (List.mem_map_of_mem (first ▸ meets.1)) ?_
      simpa using htakes.new hphase
    have hcount := plan.length_below_le meets.2
    have hspent := Nat.mul_le_mul_left (plan.edges nodes + 1) (Nat.succ_le_of_lt hfewer)
    rw [Nat.mul_succ] at hspent
    have hlength : s'.pending.length = rest.length + (plan.below c).flatten.length + 1 := by
      rw [pending]
      cases plan.mode <;> simp [Mode.schedule] <;> omega
    omega

/-! ### What is discovered -/

/-- A node that is **reached** by a way of the given length from one of the roots. -/
inductive Plan.Reach (plan : Plan N A β) (roots : List N) : Nat → N → Prop where
  | root {n : N} (mem : n ∈ roots) : Reach plan roots 0 n
  | child {d : Nat} {n m : N} (parent : Reach plan roots d n)
      (mem : m ∈ (plan.children n).flatten) : Reach plan roots (d + 1) m

omit [Identified N] in
theorem Plan.Reach.mem (hclosed : ∀ n ∈ nodes, ∀ m ∈ (plan.children n).flatten, m ∈ nodes)
    (hroots : ∀ root ∈ roots, root ∈ nodes) {d : Nat} {n : N} (h : plan.Reach roots d n) :
    n ∈ nodes := by
  induction h with
  | root mem => exact hroots _ mem
  | child _ mem ih => exact hclosed _ ih _ mem

/-- The callbacks of a walk are **complete**. -/
structure Complete (plan : Plan N A β) (roots : List N) (es : List (Event N A β)) : Prop where
  /-- Exactly the nodes that are reached from the roots are entered. -/
  reached : ∀ n, n ∈ (calls .enter es).map Event.first ↔ ∃ d, plan.Reach roots d n
  /-- Each of them is entered once. -/
  once : ((calls .enter es).map Event.first).Nodup
  /-- Each of them is left once. -/
  left : ((calls .leave es).map Event.first).Perm ((calls .enter es).map Event.first)
  /-- All other roots and children are back references. -/
  counted : (calls .backRef es).length + (calls .enter es).length =
    roots.length + ((calls .enter es).map fun e => (plan.children e.first).flatten.length).sum

/-- A context hangs where its node **belongs**: it is a root, or a child of an earlier context. -/
def Plan.Belongs (plan : Plan N A β) (roots : List N) (outline : List (N × Option Link)) (id : Nat)
    (n : N) : Option Link → Prop
  | none => n ∈ roots
  | some link => link.parent < id ∧
      ∃ p up, outline[link.parent]? = some (p, up) ∧ n ∈ (plan.children p).flatten

/-- What a walk that changes nothing and goes on everywhere has **explored** so far. -/
structure Explored (plan : Plan N A β) (roots : List N) (past : List (Event N A β))
    (s : State N A β) : Prop where
  willing : ∀ x ∈ past, x.outcome = .ok .proceed
  counted : s.outline.length = roots.length +
    ((calls .enter past).map fun e => (plan.children e.first).flatten.length).sum
  rooted : ∀ root ∈ roots, ∃ id : Nat, s.outline[id]? = some (root, none)
  /-- The children of the nodes that were entered are discovered. -/
  spread : ∀ o ∈ past, o.phase = .enter → ∀ m ∈ (plan.children o.first).flatten,
    ∃ (id : Nat) (location : Location), s.outline[id]? = some (m, some ⟨o.id, location⟩)
  /-- Nothing else is discovered. -/
  belongs : ∀ (id : Nat) (n : N) (link : Option Link), s.outline[id]? = some (n, link) →
    plan.Belongs roots s.outline id n link

omit [Identified N] in
theorem Plan.Belongs.of_isPrefix {outline outline' : List (N × Option Link)} {id : Nat} {n : N}
    {link : Option Link} (h : plan.Belongs roots outline id n link)
    (hextends : outline <+: outline') : plan.Belongs roots outline' id n link := by
  cases link with
  | none => exact h
  | some link =>
    obtain ⟨hbefore, p, up, hp, hmem⟩ := h
    exact ⟨hbefore, p, up, getElem?_of_isPrefix hextends hp, hmem⟩

omit [Identified N] in
theorem exists_located {children : Children N} {m : N} (h : m ∈ children.flatten) :
    ∃ location, (location, m) ∈ children.located := by
  rw [← children.map_located] at h
  obtain ⟨⟨location, _⟩, hp, rfl⟩ := List.mem_map.mp h
  exact ⟨location, hp⟩

/-- The node that an untouched context stands for. -/
def Untouched (nodes : List N) (first node : N) (deleted : Bool) : Prop :=
  first ∈ nodes ∧ node = first ∧ deleted = false

omit [Identified N] in
theorem Plan.below_untouched {c : Context N A β} (h : c.Meets (Untouched nodes)) :
    plan.below c = plan.children c.first := by
  obtain ⟨-, hnode, hdeleted⟩ := h
  rw [Plan.below, hdeleted, if_neg Bool.false_ne_true, hnode]

namespace Explored

theorem start (plan : Plan N A β) (recording : Bool) (roots : List N) :
    Explored plan roots [] (Traversal.start plan recording roots) := by
  refine ⟨fun _ hx => absurd hx List.not_mem_nil, ?_, fun root hroot => ?_,
    fun _ ho => absurd ho List.not_mem_nil, fun id n link hid => ?_⟩
  · rw [outline_start, List.length_map]
    rfl
  · rw [outline_start]
    exact List.mem_iff_getElem?.mp (List.mem_map_of_mem hroot)
  · rw [outline_start] at hid
    obtain ⟨root, hroot, heq⟩ := List.mem_map.mp (List.mem_of_getElem? hid)
    obtain ⟨rfl, rfl⟩ := Prod.mk.inj heq
    exact hroot

/-- **What steps discover.** -/
theorem step (h : Explored plan roots past s) (htakes : e.Takes s entry)
    (hwilling : e.outcome = .ok .proceed)
    (hcontinues : Continues plan (Untouched nodes) { s with pending := rest } e (.ok s')) :
    Explored plan roots (past ++ [e]) s' := by
  have hextends : s.outline <+: s'.outline := hcontinues.outline_isPrefix
  have hall : ∀ x ∈ past ++ [e], x.outcome = .ok .proceed := by
    intro x hx
    rcases List.mem_append.mp hx with hx | hx
    · exact h.willing x hx
    · rw [List.mem_singleton.mp hx, hwilling]
  have hrooted : ∀ root ∈ roots, ∃ id : Nat, s'.outline[id]? = some (root, none) := by
    intro root hroot
    obtain ⟨id, hid⟩ := h.rooted root hroot
    exact ⟨id, getElem?_of_isPrefix hextends hid⟩
  have hspread : ∀ o ∈ past, o.phase = .enter → ∀ m ∈ (plan.children o.first).flatten,
      ∃ (id : Nat) (location : Location), s'.outline[id]? = some (m, some ⟨o.id, location⟩) := by
    intro o ho hphase m hm
    obtain ⟨id, location, hid⟩ := h.spread o ho hphase m hm
    exact ⟨id, location, getElem?_of_isPrefix hextends hid⟩
  have hbelongs : ∀ (id : Nat) (n : N) (link : Option Link), s.outline[id]? = some (n, link) →
      plan.Belongs roots s'.outline id n link :=
    fun id n link hid => (h.belongs id n link hid).of_isPrefix hextends
  cases hcontinues with
  | ended unwilling _ _ _ => exact absurd hwilling unwilling
  | passed shut outline _ _ =>
    have hphase : e.phase ≠ .enter := fun hphase =>
      Bool.eq_false_iff.mp shut (Event.opens_iff.mpr ⟨hphase, hwilling⟩)
    refine ⟨hall, ?_, hrooted, fun o ho hp => ?_, fun id n link hid => ?_⟩
    · rw [outline, calls_snoc, if_neg hphase, List.append_nil]
      exact h.counted
    · rcases List.mem_append.mp ho with ho | ho
      · exact hspread o ho hp
      · exact absurd (List.mem_singleton.mp ho ▸ hp) hphase
    · rw [outline] at hid
      exact hbelongs id n link hid
  | @opened _ c opens meets first outline _ _ =>
    have hphase := (Event.opens_iff.mp opens).1
    rw [plan.below_untouched meets, first] at outline
    change s'.outline = s.outline ++ _ at outline
    refine ⟨hall, ?_, hrooted, fun o ho hp => ?_, fun id n link hid => ?_⟩
    · rw [outline, List.length_append, List.length_map, length_located, h.counted, calls_snoc,
        if_pos hphase, List.map_append, List.sum_append, List.map_singleton, List.sum_singleton,
        Nat.add_assoc]
    · rcases List.mem_append.mp ho with ho | ho
      · exact hspread o ho hp
      · obtain rfl := List.mem_singleton.mp ho
        intro m hm
        obtain ⟨location, hlocated⟩ := exists_located hm
        have hmem : (m, some ⟨o.id, location⟩) ∈ s'.outline := by
          rw [outline]
          exact List.mem_append_right _ (List.mem_map.mpr ⟨_, hlocated, rfl⟩)
        obtain ⟨id, hid⟩ := List.mem_iff_getElem?.mp hmem
        exact ⟨id, location, hid⟩
    · rw [outline] at hid
      rcases Nat.lt_or_ge id s.outline.length with hold | hnew
      · rw [List.getElem?_append_left hold] at hid
        exact hbelongs id n link hid
      · rw [List.getElem?_append_right hnew] at hid
        obtain ⟨p, hp, heq⟩ := List.mem_map.mp (List.mem_of_getElem? hid)
        obtain ⟨rfl, rfl⟩ := Prod.mk.inj heq
        have hid := (List.getElem?_eq_some_iff.mp htakes.here).1
        exact ⟨Nat.lt_of_lt_of_le hid hnew, e.first, _, getElem?_of_isPrefix hextends htakes.here,
          mem_flatten_of_located hp⟩

/-- Only what is reached from the roots is discovered. -/
theorem reach (h : Explored plan roots past s) {id : Nat} {n : N} {link : Option Link}
    (hid : s.outline[id]? = some (n, link)) : ∃ d, plan.Reach roots d n := by
  induction id using Nat.strongRecOn generalizing n link with
  | ind id ih =>
    have hbelongs := h.belongs id n link hid
    cases link with
    | none => exact ⟨0, .root hbelongs⟩
    | some link =>
      obtain ⟨hbefore, p, up, hp, hmem⟩ := hbelongs
      obtain ⟨d, hd⟩ := ih link.parent hbefore hp
      exact ⟨d + 1, .child hd hmem⟩

end Explored

/-! ### Whole walks -/

/-- At the end every context has been visited. -/
theorem Running.exists_visit {es : List (Event N A β)} (h : Running es s)
    (hpending : s.pending = []) {id : Nat} {n : N} {link : Option Link}
    (hid : s.outline[id]? = some (n, link)) :
    ∃ x ∈ es, x.phase ≠ .leave ∧ x.id = id ∧ x.first = n := by
  have hlt := (List.getElem?_eq_some_iff.mp hid).1
  have hvisit := h.visits.mem_iff.mpr (List.mem_range.mpr hlt)
  rw [line, hpending, List.append_nil, filterMap_visit?_entry] at hvisit
  obtain ⟨x, hx, rfl⟩ := List.mem_map.mp hvisit
  obtain ⟨hmem, hphase⟩ := List.mem_filter.mp hx
  refine ⟨x, hmem, by simpa using hphase, rfl, ?_⟩
  exact (Prod.mk.inj (Option.some.inj ((h.traced x hmem).found.symm.trans hid))).1

/-- What was entered has been visited by a callback that enters. -/
theorem Running.exists_enter {es : List (Event N A β)} (h : Running es s) {i : Identity N}
    (hi : i ∈ s.visited) : ∃ o ∈ es, o.phase = .enter ∧ identity o.first = i := by
  rw [h.visited, List.mem_reverse] at hi
  obtain ⟨o, ho, rfl⟩ := List.mem_map.mp hi
  obtain ⟨hmem, hphase⟩ := List.mem_filter.mp ho
  exact ⟨o, hmem, by simpa using hphase, rfl⟩

theorem length_calls (es : List (Event N A β)) :
    (es.filter (·.phase ≠ .leave)).length =
      (calls .backRef es).length + (calls .enter es).length := by
  induction es with
  | nil => rfl
  | cons e es ih =>
    rw [calls, calls] at ih ⊢
    cases hphase : e.phase <;> simp [hphase] at ih ⊢ <;> omega

section Complete

variable {es : List (Event N A β)} (hrunning : Running es s) (hexplored : Explored plan roots es s)
  (hpending : s.pending = [])
  (hclosed : ∀ n ∈ nodes, ∀ m ∈ (plan.children n).flatten, m ∈ nodes)
  (hroots : ∀ root ∈ roots, root ∈ nodes)
  (hidentity : ∀ a ∈ nodes, ∀ b ∈ nodes, identity a = identity b → a = b)

include hrunning hexplored hpending hclosed hroots hidentity

/-- At the end every node that was discovered has been entered. -/
theorem exists_enter_of_outline {id : Nat} {n : N} {link : Option Link}
    (hid : s.outline[id]? = some (n, link)) : ∃ o ∈ es, o.phase = .enter ∧ o.first = n := by
  obtain ⟨x, hx, hphase, -, rfl⟩ := hrunning.exists_visit hpending hid
  obtain ⟨o, ho, hphase', hsame⟩ := hrunning.exists_enter (hrunning.met x hx hphase)
  refine ⟨o, ho, hphase', hidentity _ ?_ _ ?_ hsame⟩
  · obtain ⟨d, hd⟩ := hexplored.reach (hrunning.traced o ho).found
    exact hd.mem hclosed hroots
  · obtain ⟨d, hd⟩ := hexplored.reach (hrunning.traced x hx).found
    exact hd.mem hclosed hroots

/-- **A walk that has come to its end is complete.** -/
theorem complete_of_explored (hexact : Exact es) : Complete plan roots es where
  reached n := by
    constructor
    · intro hn
      obtain ⟨o, ho, rfl⟩ := List.mem_map.mp hn
      exact hexplored.reach (hrunning.traced o (List.mem_filter.mp ho).1).found
    · rintro ⟨d, hd⟩
      have hentered : ∃ o ∈ es, o.phase = .enter ∧ o.first = n := by
        induction hd with
        | root mem =>
          obtain ⟨id, hid⟩ := hexplored.rooted _ mem
          exact exists_enter_of_outline hrunning hexplored hpending hclosed hroots hidentity hid
        | child _ mem ih =>
          obtain ⟨o, ho, hphase, rfl⟩ := ih
          obtain ⟨id, location, hid⟩ := hexplored.spread o ho hphase _ mem
          exact exists_enter_of_outline hrunning hexplored hpending hclosed hroots hidentity hid
      obtain ⟨o, ho, hphase, rfl⟩ := hentered
      exact List.mem_map_of_mem (List.mem_filter.mpr ⟨ho, by simpa using hphase⟩)
  once := by
    refine List.Nodup.of_map identity ?_
    rw [List.map_map]
    exact hexact.entered
  left := by
    -- contexts are left that were opened, and those are all that were entered
    have hopened : es.filter Event.opens = calls .enter es := by
      refine List.filter_congr fun o ho => ?_
      rw [Bool.eq_iff_iff, Event.opens_iff, hexplored.willing o ho]
      simp
    have hids := hrunning.leaves
    rw [line, hpending, List.append_nil, filterMap_leave?_entry, hopened] at hids
    have hfirst : ∀ phase, ((calls phase es).map Event.first).map some =
        ((calls phase es).map Event.id).map fun id => s.outline[id]?.map Prod.fst := by
      intro phase
      rw [List.map_map, List.map_map]
      refine List.map_congr_left fun o ho => ?_
      show some o.first = s.outline[o.id]?.map Prod.fst
      rw [(hrunning.traced o (List.mem_filter.mp ho).1).found]
      rfl
    refine (List.map_perm_map_iff (Option.some_injective N)).mp ?_
    rw [hfirst, hfirst]
    exact hids.map _
  counted := by
    have hvisits := hrunning.visits.length_eq
    rw [line, hpending, List.append_nil, filterMap_visit?_entry, List.length_map, length_calls,
      List.length_range, hexplored.counted] at hvisits
    exact hvisits

end Complete

/-- What a walk over a graph preserves, for every visitor that goes on with nodes of the graph only.
Once the walk has been quit nothing is pending, and there is nothing left to show. -/
theorem preserved_exact (plan : Plan N A β) (nodes roots : List N) :
    Preserved plan (fun first node _ => first ∈ nodes ∧ node ∈ nodes) (fun _ => True)
      (fun past s => (Running past s ∨ s.pending = []) ∧ Affords plan nodes roots past s)
      (fun past => Exact past ∧ past.length ≤ plan.budget nodes roots) where
  known hI entry hentry := by
    rcases hI.1 with hrunning | hnil
    · exact hrunning.known entry hentry
    · exact absurd (hnil ▸ hentry) List.not_mem_nil
  call {past s entry rest e} hI hpending htakes _ hG := by
    have hrunning := hI.1.resolve_right (by rw [hpending]; nofun)
    have hpaid := hI.2
    rw [Affords, hpending, List.length_cons] at hpaid
    refine ⟨hrunning.exact_snoc hpending htakes hG.1, ?_⟩
    rw [List.length_append, List.length_singleton]
    omega
  step hI hpending htakes _ hcontinues := by
    have hrunning := hI.1.resolve_right (by rw [hpending]; nofun)
    exact ⟨(hrunning.step hpending htakes hcontinues).imp_right And.left,
      hI.2.step hpending htakes hcontinues⟩

/-- What a walk preserves that changes nothing and goes on everywhere. -/
theorem preserved_explored (plan : Plan N A β) (nodes roots : List N) :
    Preserved plan (Untouched nodes) (· = .ok .proceed)
      (fun past s => Running past s ∧ Explored plan roots past s)
      (fun past => ∀ x ∈ past, x.outcome = .ok .proceed) where
  known hI := hI.1.known
  call _ _ _ hwilling hG x hx := by
    rcases List.mem_append.mp hx with hx | hx
    · exact hG x hx
    · rw [List.mem_singleton.mp hx, hwilling]
  step hI hpending htakes hwilling hcontinues := by
    refine ⟨?_, hI.2.step htakes hwilling hcontinues⟩
    exact (hI.1.step hpending htakes hcontinues).resolve_right fun hquit => hquit.2 hwilling

variable [DecidableEq κ]

/-- A visitor **proceeds** if every callback says to go on as usual. -/
def Proceeds (visitor : SequentialVisitor σ N A β) : Prop :=
  ∀ phase own, Program.Ends (fun out => out.1 = .ok .proceed) (visitor.on phase own)

omit [Identified N] [DecidableEq κ] in
theorem ends_true {V Q α : Type} (p : Program V Q α) : p.Ends fun _ => True := by
  induction p with
  | done a => trivial
  | look next ih => exact ih
  | ask q next ih => exact ih

theorem upholds_of_staysIn (hclosed : ∀ n ∈ nodes, ∀ m ∈ (plan.children n).flatten, m ∈ nodes)
    (hvisitor : visitor.Requests (Request.StaysIn (· ∈ nodes))) :
    Upholds plan visitor (fun first node _ => first ∈ nodes ∧ node ∈ nodes) fun _ => True where
  requests phase own := by
    refine (hvisitor phase own).imp fun q hq c c' halters hc => ?_
    cases halters with
    | refused | setVar | setAccumulate | delete | remove => exact hc
    | change | replace => exact ⟨hc.1, hq⟩
  children {c} hc m hm := by
    rw [Plan.below] at hm
    split at hm
    · exact absurd hm List.not_mem_nil
    · exact ⟨hclosed _ hc.2 m hm, hclosed _ hc.2 m hm⟩
  outcomes phase own := ends_true _

theorem upholds_of_makesNotes (hclosed : ∀ n ∈ nodes, ∀ m ∈ (plan.children n).flatten, m ∈ nodes)
    (hnotes : visitor.Requests Request.MakesNotes) (hproceeds : Proceeds visitor) :
    Upholds plan visitor (Untouched nodes) (· = .ok .proceed) where
  requests phase own := by
    refine (hnotes phase own).imp fun q hq c c' halters hc => ?_
    cases halters with
    | refused | setVar | setAccumulate => exact hc
    | change | replace | delete | remove => exact hq.elim
  children {c} hc m hm := by
    rw [plan.below_untouched hc] at hm
    exact ⟨hclosed _ hc.1 m hm, rfl, rfl⟩
  outcomes := hproceeds

section Walk

variable (hclosed : ∀ n ∈ nodes, ∀ m ∈ (plan.children n).flatten, m ∈ nodes)
  (hroots : ∀ root ∈ roots, root ∈ nodes)

omit [DecidableEq κ] in
include hroots in
theorem start_meets {K : N → N → Bool → Prop} (hK : ∀ n ∈ nodes, K n n false) (recording : Bool) :
    (start plan recording roots).Meets K := by
  intro id c hc
  rw [start, List.getElem?_toArray] at hc
  obtain ⟨root, hroot, rfl⟩ := List.mem_map.mp (List.mem_of_getElem? hc)
  exact hK root (hroots root hroot)

include hclosed hroots

/-- Every walk over the graph is exact, and it ends within its budget. -/
theorem callbacks_exact (hvisitor : visitor.Requests (Request.StaysIn (· ∈ nodes)))
    (recording : Bool) (limit : Nat) (own : σ) :
    Exact (callbacks plan visitor recording limit roots own) ∧
      (plan.budget nodes roots < limit →
        ((walk plan visitor recording limit roots).runWith own).1 ≠ .error .exhausted) := by
  have hempty : Exact ([] : List (Event N A β)) :=
    ⟨List.nodup_nil, List.nodup_nil, List.nodup_nil, fun before e h =>
      absurd (List.prefix_nil.mp h) (by simp)⟩
  obtain ⟨⟨hexact, hlength⟩, hend⟩ := events_invariant (upholds_of_staysIn hclosed hvisitor)
    (preserved_exact plan nodes roots) limit own
    (start_meets hroots (fun n hn => ⟨hn, hn⟩) recording) ⟨hempty, Nat.zero_le _⟩
    ⟨.inl (Running.start plan recording roots), Affords.start recording⟩
  rw [List.nil_append] at hexact hlength
  refine ⟨hexact, fun hlimit hexhausted => ?_⟩
  change ((steps plan visitor limit (start plan recording roots)).runWith own).1 = _ at hexhausted
  rw [hexhausted] at hend
  have hcount : (events plan visitor limit (start plan recording roots) own).length = limit := hend
  omega

/-- A walk that changes nothing and goes on everywhere succeeds, and has explored all then. -/
theorem explored_of_walk (hnotes : visitor.Requests Request.MakesNotes)
    (hproceeds : Proceeds visitor) (recording : Bool) {limit : Nat}
    (hlimit : plan.budget nodes roots < limit) (own : σ) :
    ∃ s own', (walk plan visitor recording limit roots).runWith own = (.ok s, own') ∧
      s.pending = [] ∧ Running (callbacks plan visitor recording limit roots own) s ∧
      Explored plan roots (callbacks plan visitor recording limit roots own) s := by
  obtain ⟨hwilling, hend⟩ := events_invariant (upholds_of_makesNotes hclosed hnotes hproceeds)
    (preserved_explored plan nodes roots) limit own
    (start_meets hroots (fun n hn => ⟨hn, rfl, rfl⟩) recording)
    (fun _ hx => absurd hx List.not_mem_nil)
    ⟨Running.start plan recording roots, Explored.start plan recording roots⟩
  have hends := (callbacks_exact hclosed hroots (fun phase own =>
    (hnotes phase own).imp fun q hq => hq.staysIn _) recording limit own).2 hlimit
  rw [List.nil_append] at hwilling hend
  change Concludes _ _ _ ((walk plan visitor recording limit roots).runWith own).1 at hend
  cases hrun : (walk plan visitor recording limit roots).runWith own with
  | mk out own' =>
    rw [hrun] at hend hends
    cases out with
    | ok s =>
      obtain ⟨⟨hrunning, hexplored⟩, hpending⟩ := hend
      exact ⟨s, own', rfl, hpending, hrunning, hexplored⟩
    | error interrupt =>
      cases interrupt with
      | failed error =>
        obtain ⟨x, hx, hne⟩ := hend
        exact absurd (hwilling x hx) hne
      | exhausted => exact absurd rfl hends

/-- **Every walk over a finite graph ends and is exact**, in either order. The graph is given by its
nodes, may have cycles and shared nodes, and the visitor goes on with none but its nodes. The
callbacks are those that a visitor with a log writes down. If the visitor neither edits nor passes
anything over, and nodes are told apart by their identities, then the callbacks are complete. -/
theorem walk_exact (hvisitor : visitor.Requests (Request.StaysIn (· ∈ nodes))) (recording : Bool)
    {limit : Nat} (hlimit : plan.budget nodes roots < limit) (own : σ) :
    ((walk plan visitor recording limit roots).runWith own).1 ≠ .error .exhausted ∧
      ((walk plan visitor.logging recording limit roots).runWith (own, [])).2.2 =
        (callbacks plan visitor recording limit roots own).map (fun e => (e.phase, e.seen)) ∧
      Exact (callbacks plan visitor recording limit roots own) ∧
      (visitor.Requests Request.MakesNotes → Proceeds visitor →
        (∀ a ∈ nodes, ∀ b ∈ nodes, identity a = identity b → a = b) →
        (∃ s own', (walk plan visitor recording limit roots).runWith own = (.ok s, own')) ∧
          Complete plan roots (callbacks plan visitor recording limit roots own)) := by
  obtain ⟨hexact, hends⟩ := callbacks_exact hclosed hroots hvisitor recording limit own
  refine ⟨hends hlimit, walk_logging plan visitor recording limit roots own, hexact,
    fun hnotes hproceeds hidentity => ?_⟩
  obtain ⟨s, own', hrun, hpending, hrunning, hexplored⟩ :=
    explored_of_walk hclosed hroots hnotes hproceeds recording hlimit own
  exact ⟨⟨s, own', hrun⟩, complete_of_explored hrunning hexplored hpending hclosed hroots hidentity
    hexact⟩

end Walk

/-! ### A graph with a cycle -/

open Arborist.Graph

/-- The ring in the other order. -/
def wideRingPlan : Plan Node Nat (fun _ : Unit => Nat) :=
  { ringPlan with mode := .breadthFirst }

theorem wideRingPlan_closed (n : Node) (hn : n ∈ [Node.listed "a", .listed "b", .listed "c"]) :
    ∀ m ∈ (wideRingPlan.children n).flatten, m ∈ [Node.listed "a", .listed "b", .listed "c"] :=
  ringPlan_closed n hn

/-- A visitor that counts its callbacks. -/
def tallyVisitor : SequentialVisitor Unit Node Nat (fun _ : Unit => Nat) where
  enter := fun own => .look fun cursor => .ask (.setAccumulate (cursor.here.current + 1)) fun _ =>
    .done (.ok .proceed, own)
  backRef := fun own => .look fun cursor => .ask (.setAccumulate (cursor.here.current + 1)) fun _ =>
    .done (.ok .proceed, own)

theorem tallyVisitor_makesNotes : tallyVisitor.Requests Request.MakesNotes := by
  intro phase own
  cases phase with
  | enter | backRef => exact fun _ => ⟨trivial, fun _ => trivial⟩
  | leave => trivial

theorem tallyVisitor_proceeds : Proceeds tallyVisitor := by
  intro phase own
  cases phase with
  | enter | backRef => exact fun _ _ => rfl
  | leave => rfl

/-- Nodes of tables are told apart by their identities. -/
theorem Listed.eq_of_identity_eq {a b : Node} (ha : Listed a) (hb : Listed b)
    (h : identity a = identity b) : a = b := by
  obtain ⟨name, rfl⟩ := ha
  obtain ⟨name', rfl⟩ := hb
  exact congrArg Node.listed (Tag.listed.inj h)

theorem ring_listed : ∀ n ∈ [Node.listed "a", .listed "b", .listed "c"], Listed n := by
  simp [Listed]

/-- The walk over the ring is exact also where nodes are changed and deleted, and complete in the
other order with a root that is given twice. -/
theorem walk_exact_ring :
    (((walk ringPlan (ringVisitor.comap Cursor.sight) false 20 [.listed "a"]).runWith ()).1 ≠
        .error .exhausted ∧
      Exact (callbacks ringPlan (ringVisitor.comap Cursor.sight) false 20 [.listed "a"] ())) ∧
    Complete wideRingPlan [.listed "a", .listed "a"]
      (callbacks wideRingPlan tallyVisitor true 20 [.listed "a", .listed "a"] ()) := by
  have hbudget : ringPlan.budget [.listed "a", .listed "b", .listed "c"] [.listed "a"] < 20 :=
    (by decide : 1 + (4 + 1) * 3 < 20)
  have hnarrow := walk_exact ringPlan_closed (by simp) (ringVisitor_staysIn.comap Cursor.sight)
    false hbudget ()
  have hbudget' : wideRingPlan.budget [.listed "a", .listed "b", .listed "c"]
      [.listed "a", .listed "a"] < 20 :=
    (by decide : 2 + (4 + 1) * 3 < 20)
  have hwide := walk_exact wideRingPlan_closed (by simp)
    (fun phase own => (tallyVisitor_makesNotes phase own).imp fun q hq => hq.staysIn _) true
    hbudget' ()
  exact ⟨⟨hnarrow.1, hnarrow.2.2.1⟩, (hwide.2.2.2 tallyVisitor_makesNotes tallyVisitor_proceeds
    fun a ha b hb => (ring_listed a ha).eq_of_identity_eq (ring_listed b hb)).2⟩

end Arborist.Traversal
