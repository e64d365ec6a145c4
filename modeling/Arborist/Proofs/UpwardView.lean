import Arborist.Proofs.LevelOrder

/-!
# The view upwards

A callback looks up: it sees the contexts above its own, their nodes, the way to the root, and the
variables that it inherits. Nothing of this is stored. It is read off the links between contexts
whenever the callback asks, while nodes are changed and variables are set all the time. In a
depth-first walk the view is **exact** all the same (`transcript_exactAbove`): the contexts above
are those that are open, their nodes are those with which they were left, every crumb leads to the
next lower one, and an inherited variable is what was stored last on the nearest of them.

* A `Dialogue` is a callback in full: its event, all that it got to see, all that it asked for, and
  the node that it left. `transcript` lists the dialogues of a run, and what holds of a context is
  told from the dialogues about it (`lastStored`, `lastNode`).
* `Arena.Hangs` says which contexts stand above one, and that each has the next lower one among its
  children. A node may still change as long as nothing hangs below it.
* `Arena.Nests` is the invariant of the pending entries: above the context of each of them stand
  those that are left behind it. Together with `Running` it makes `Nested`, which every step keeps.
-/

namespace Arborist

variable {σ N A κ : Type} {β : κ → Type}

/-! ### What a callback sees and asks for -/

namespace Program

variable {V Q S α : Type} {view : S → V} {perform : Q → Attempt S Unit}

/-- What a program gets to see, look by look. -/
def shown (view : S → V) (perform : Q → Attempt S Unit) : Program V Q α → S → List V
  | .done _, _ => []
  | .look next, s => view s :: (next (view s)).shown view perform s
  | .ask q next, s =>
    let (r, s') := (perform q).runWith s
    (next r).shown view perform s'

/-- Whatever is shown is a state that the requests have led to. -/
theorem exists_of_mem_shown {I : S → Prop} (hperform : ∀ q s, I s → I ((perform q).runWith s).2)
    (p : Program V Q α) {s : S} (hs : I s) {v : V} (hv : v ∈ p.shown view perform s) :
    ∃ t, I t ∧ v = view t := by
  induction p generalizing s with
  | done a => exact absurd hv List.not_mem_nil
  | look next ih =>
    rcases List.mem_cons.mp hv with rfl | hv
    · exact ⟨s, hs, rfl⟩
    · exact ih _ hs hv
  | ask q next ih => exact ih _ (hperform q s hs) hv

end Program

namespace Request

variable [DecidableEq κ]

/-- The variables of a context after a request. -/
def store (vars : Vars β) : Request N A β → Vars β
  | .setVar key value => vars.insert key value
  | _ => vars

/-- The value that a request stores under a key. -/
def stored? (k : κ) : Request N A β → Option (β k)
  | .setVar key value => if h : key = k then some (h ▸ value) else none
  | _ => none

theorem get?_store (vars : Vars β) (q : Request N A β) (k : κ) :
    (store vars q).get? k = (q.stored? k).or (vars.get? k) := by
  cases q with
  | setVar key value =>
    by_cases hkey : key = k
    · subst hkey
      simp [store, stored?]
    · rw [store, stored?, dif_neg hkey, Option.none_or, vars.get?_insert_of_ne hkey]
  | _ => rfl

/-- After some requests a variable has the value that was stored last. -/
theorem get?_foldl_store (qs : List (Request N A β)) (vars : Vars β) (k : κ) :
    (qs.foldl store vars).get? k = (qs.reverse.findSome? (stored? k)).or (vars.get? k) := by
  induction qs generalizing vars with
  | nil => rfl
  | cons q qs ih =>
    rw [List.foldl_cons, ih, get?_store, List.reverse_cons, List.findSome?_append,
      List.findSome?_singleton, Option.or_assoc]

end Request

/-! ### Ledgers that a callback works on -/

/-- A callback at `id` has **worked** on a ledger: only its own context differs from the arena it
began with, and that stays in its place and holds the given variables. -/
def Ledger.Worked (arena : Arena N A β) (id : Nat) (c : Context N A β) (vars : Vars β)
    (l : Ledger N A β) : Prop :=
  ∃ c', l.arena = arena.modify id (fun _ => c') ∧ c'.first = c.first ∧ c'.link = c.link ∧
    c'.vars = vars

theorem Ledger.Worked.size_eq {arena : Arena N A β} {id : Nat} {c : Context N A β} {vars : Vars β}
    {l : Ledger N A β} (h : l.Worked arena id c vars) : l.arena.size = arena.size := by
  obtain ⟨c', harena, -⟩ := h
  rw [harena, Array.size_modify]

section Worked

variable [Identified N] [DecidableEq κ] {spot : Spot N A β} {arena : Arena N A β}
  {c : Context N A β} {vars : Vars β} {l : Ledger N A β}

/-- A request stores what it stores, granted or not, and moves nothing. -/
theorem Spot.perform_stores (hc : l.arena[spot.id]? = some c) (q : Request N A β) :
    ((spot.perform q).runWith l).2.Worked l.arena spot.id c (q.store c.vars) := by
  cases hq : q with
  | setVar key value =>
    exact ⟨{ c with vars := c.vars.insert key value },
      Arena.modify_eq hc fun c => { c with vars := c.vars.insert key value }, rfl, rfl, rfl⟩
  | setAccumulate | change | delete | replace | remove | insertBefore | insertAfter =>
    -- granted or refused, these leave the variables alone
    rw [← hq]
    obtain ⟨c', harena, halters⟩ := Spot.perform_alters hc q
    refine ⟨c', harena, halters.keeps.1, halters.keeps.2, ?_⟩
    subst hq
    cases halters <;> rfl

theorem Ledger.Worked.perform (spot : Spot N A β) (hc : arena[spot.id]? = some c)
    (h : l.Worked arena spot.id c vars) (q : Request N A β) :
    ((spot.perform q).runWith l).2.Worked arena spot.id c (q.store vars) := by
  obtain ⟨d, harena, hfirst, hlink, rfl⟩ := h
  have hd : l.arena[spot.id]? = some d := by
    rw [harena, Array.getElem?_modify_of_some hc]
  obtain ⟨d', harena', hfirst', hlink', hvars⟩ := Spot.perform_stores hd q
  refine ⟨d', ?_, hfirst'.trans hfirst, hlink'.trans hlink, hvars⟩
  rw [harena', harena, Array.modify_modify_const]

/-- **A callback** leaves a ledger on which it has worked, with all that it stored. -/
theorem Ledger.Worked.run {V α : Type} (spot : Spot N A β) (hc : arena[spot.id]? = some c)
    (view : Ledger N A β → V) (p : Program V (Request N A β) α)
    (h : l.Worked arena spot.id c vars) : (p.run view spot.perform l).2.Worked arena spot.id c
      (((p.asked view spot.perform l).map Prod.snd).foldl Request.store vars) := by
  induction p generalizing l vars with
  | done a => exact h
  | look next ih => exact ih _ h
  | ask q next ih => exact ih _ (h.perform spot hc q)

end Worked

/-! ### Contexts above -/

/-- The contexts at the given places **stand above** a context, nearest first: the links lead up
through them, and each of them has the next lower one among its children, where the link says, and
as it was first met. -/
inductive Arena.Hangs (children : N → Children N) (arena : Arena N A β) :
    Context N A β → List Nat → Prop where
  | top {c : Context N A β} (link : c.link = none) : Hangs children arena c []
  | under {c above : Context N A β} {l : Link} {ids : List Nat} (link : c.link = some l)
      (found : arena[l.parent]? = some above)
      (child : (l.location, c.first) ∈ (children above.node).located)
      (rest : Hangs children arena above ids) : Hangs children arena c (l.parent :: ids)

namespace Arena

variable {children : N → Children N} {arena arena' : Arena N A β} {c c' : Context N A β}
  {ids : List Nat}

namespace Hangs

/-- Of a context itself only its first node and its link matter. -/
theorem of_eq (h : arena.Hangs children c ids) (hfirst : c'.first = c.first)
    (hlink : c'.link = c.link) : arena.Hangs children c' ids := by
  cases h with
  | top link => exact .top (hlink.trans link)
  | under link found child rest => exact .under (hlink.trans link) found (hfirst ▸ child) rest

/-- A child hangs below the context of its parent when it is discovered. -/
theorem discover {id : Nat} {location : Location} {child : N} (hc : arena[id]? = some c)
    (hchild : (location, child) ∈ (children c.node).located) (h : arena.Hangs children c ids)
    (accumulate : A) :
    arena.Hangs children (.discover child (some id) (some location) accumulate) (id :: ids) :=
  .under (l := ⟨id, location⟩) rfl hc hchild h

/-- What stands above goes by the contexts above. -/
theorem congr (h : arena.Hangs children c ids) (hsame : ∀ i ∈ ids, arena'[i]? = arena[i]?) :
    arena'.Hangs children c ids := by
  induction h with
  | top link => exact .top link
  | under link found child rest ih =>
    obtain ⟨hnext, hids⟩ := List.forall_mem_cons.mp hsame
    exact .under link (hnext.trans found) child (ih hids)

theorem exists_context (h : arena.Hangs children c ids) :
    ∀ i ∈ ids, ∃ above, arena[i]? = some above := by
  induction h with
  | top link => exact fun i hi => absurd hi List.not_mem_nil
  | under link found child rest ih => exact List.forall_mem_cons.mpr ⟨⟨_, found⟩, ih⟩

theorem length_le (h : arena.Hangs children c ids) (hnodup : ids.Nodup) :
    ids.length ≤ arena.size := by
  have hrange : ids ⊆ List.range arena.size := by
    intro i hi
    obtain ⟨above, habove⟩ := h.exists_context i hi
    exact List.mem_range.mpr (lt_size_of_getElem? habove)
  simpa using (hnodup.subperm hrange).length_le

/-- Climbing finds all that stand above. -/
theorem climb (h : arena.Hangs children c ids) {n : Nat} (hn : ids.length ≤ n) :
    (arena.climb n c.link).map (fun p => some p.2) = ids.map (arena[·]?) := by
  induction h generalizing n with
  | top link =>
    rw [link]
    cases n <;> rfl
  | under link found child rest ih =>
    cases n with
    | zero => exact absurd hn (Nat.not_succ_le_zero _)
    | succ n =>
      simp only [Arena.climb, link, found, List.map_cons, ih (Nat.le_of_succ_le_succ hn)]

/-- What is climbed through leads to the next lower one each time. -/
theorem climb_located (h : arena.Hangs children c ids) {n : Nat} (hn : ids.length ≤ n) {i : Nat}
    {p : Location × Context N A β} (hp : (arena.climb n c.link)[i]? = some p) :
    ∃ below, (c :: (arena.climb n c.link).map Prod.snd)[i]? = some below ∧
      (p.1, below.first) ∈ (children p.2.node).located := by
  induction h generalizing n i with
  | top link =>
    rw [link] at hp
    cases n <;> simp [Arena.climb] at hp
  | @under c above l ids link found child rest ih =>
    cases n with
    | zero => exact absurd hn (Nat.not_succ_le_zero _)
    | succ n =>
      simp only [Arena.climb, link, found] at hp ⊢
      cases i with
      | zero =>
        obtain rfl := Option.some.inj hp
        exact ⟨c, rfl, child⟩
      | succ i => exact ih (Nat.le_of_succ_le_succ hn) hp

/-- The nearest one above that has something, by the places of the contexts. -/
theorem climb_findSome? {γ : Type} {f : Context N A β → Option γ} {g : Nat → Option γ}
    (h : arena.Hangs children c ids) {n : Nat} (hn : ids.length ≤ n)
    (hf : ∀ i ∈ ids, ∀ d, arena[i]? = some d → f d = g i) :
    (arena.climb n c.link).findSome? (fun p => f p.2) = ids.findSome? g := by
  induction h generalizing n with
  | top link =>
    rw [link]
    cases n <;> rfl
  | under link found child rest ih =>
    cases n with
    | zero => exact absurd hn (Nat.not_succ_le_zero _)
    | succ n =>
      obtain ⟨hnext, hids⟩ := List.forall_mem_cons.mp hf
      simp only [Arena.climb, link, found, List.findSome?_cons, hnext _ found,
        ih (Nat.le_of_succ_le_succ hn) hids]

/-- The parent is the nearest context above. -/
theorem parent (h : arena.Hangs children c ids) :
    (c.link.bind fun l => arena[l.parent]?) = ids.head?.bind (arena[·]?) := by
  cases h with
  | top link | under link _ _ _ =>
    rw [link]
    rfl

end Hangs

end Arena

/-- The contexts above, nearest first. -/
def Cursor.above [Identified N] (v : Cursor N A β) : List (Context N A β) :=
  (v.arena.ancestors v.here).map Prod.snd

namespace Traversal

variable [Identified N]

/-! ### Open contexts -/

/-- The contexts that are **still open**: those that were opened and have not been left since,
innermost first. -/
def stillOpen (es : List (Event N A β)) : List Nat :=
  (((es.filter Event.opens).map Event.id).filter
    fun id => id ∉ (calls .leave es).map Event.id).reverse

section StillOpen

variable {es : List (Event N A β)} {e : Event N A β}

theorem stillOpen_snoc_leave (h : e.phase = .leave) :
    stillOpen (es ++ [e]) = (stillOpen es).filter (· ≠ e.id) := by
  have hshut : e.opens = false := Bool.eq_false_iff.mpr fun hopens => e.ne_leave hopens h
  rw [stillOpen, stillOpen, calls_snoc, if_pos h, filter_opens_snoc_shut hshut,
    List.filter_reverse, List.filter_filter, List.map_append, List.map_singleton]
  refine congrArg List.reverse (List.filter_congr fun id _ => ?_)
  simp [or_comm]

theorem stillOpen_snoc_shut (h : e.phase ≠ .leave) (hshut : e.opens = false) :
    stillOpen (es ++ [e]) = stillOpen es := by
  rw [stillOpen, stillOpen, calls_snoc, if_neg h, List.append_nil, filter_opens_snoc_shut hshut]

/-- A context that is opened becomes the innermost one. -/
theorem stillOpen_snoc_opens (hopens : e.opens = true)
    (hnot : e.id ∉ (calls .leave es).map Event.id) :
    stillOpen (es ++ [e]) = e.id :: stillOpen es := by
  rw [stillOpen, stillOpen, calls_snoc, if_neg (e.ne_leave hopens), List.append_nil,
    opened_snoc hopens, List.filter_append, List.filter_cons_of_pos (by simpa using hnot),
    List.filter_nil, List.reverse_append, List.reverse_singleton, List.singleton_append]

end StillOpen

/-! ### Pending entries -/

/-- An entry is either visited or left. -/
theorem map_id_perm (pending : List Entry) : (pending.map Entry.id).Perm
    (pending.filterMap Entry.visit? ++ pending.filterMap Entry.leave?) := by
  induction pending with
  | nil => exact List.Perm.refl _
  | cons entry pending ih =>
    cases entry with
    | visit id => exact ih.cons id
    | leave id => exact (ih.cons id).trans List.perm_middle.symm

theorem mem_map_id_of_leave {pending : List Entry} {i : Nat}
    (hi : i ∈ pending.filterMap Entry.leave?) : i ∈ pending.map Entry.id :=
  (map_id_perm pending).mem_iff.mpr (List.mem_append_right _ hi)

section Running

variable {past : List (Event N A β)} {s : State N A β}

/-- What has been opened has been visited, and is not visited again. -/
theorem Running.not_pending (h : Running past s) {id : Nat}
    (hid : id ∈ (past.filter Event.opens).map Event.id) :
    id ∉ s.pending.filterMap Entry.visit? := by
  have hvisits := h.visits_nodup
  rw [line, List.filterMap_append, filterMap_visit?_entry] at hvisits
  exact (List.nodup_append'.mp hvisits).2.2 ((opened_sublist past).subset hid)

/-- Whatever is left has been opened. -/
theorem Running.opened_of_left (h : Running past s) {id : Nat}
    (hid : id ∈ (line past s).filterMap Entry.leave?) :
    id ∈ (past.filter Event.opens).map Event.id :=
  h.leaves.mem_iff.mp hid

/-- All pending entries are about different contexts. -/
theorem Running.pending_nodup (h : Running past s) : (s.pending.map Entry.id).Nodup := by
  have hvisits := h.visits_nodup
  have hleaves := h.leaves_nodup
  rw [line, List.filterMap_append] at hvisits hleaves
  refine (map_id_perm s.pending).nodup_iff.mpr (List.nodup_append'.mpr
    ⟨(List.nodup_append'.mp hvisits).2.1, (List.nodup_append'.mp hleaves).2.1, ?_⟩)
  intro id hvisit hleave
  refine h.not_pending (h.opened_of_left ?_) hvisit
  rw [line, List.filterMap_append]
  exact List.mem_append_right _ hleave

/-- What is still to be visited has not been left. -/
theorem Running.not_left (h : Running past s) {id : Nat} (hid : Entry.visit id ∈ s.pending) :
    id ∉ (calls .leave past).map Event.id := by
  intro hleft
  refine h.not_pending (h.opened_of_left ?_) (List.mem_filterMap.mpr ⟨_, hid, rfl⟩)
  rw [line, List.filterMap_append, filterMap_leave?_entry]
  exact List.mem_append_left _ hleft

/-- All callbacks were about contexts that are known. -/
theorem Running.past_lt (h : Running past s) : ∀ e ∈ past, e.id < s.ledger.arena.size := by
  intro e he
  have hfound := (List.getElem?_eq_some_iff.mp (h.traced e he).found).1
  rwa [State.outline, Arena.length_outline] at hfound

end Running

/-- Pending entries are **nested**: above the context of each of them stand the contexts that are
left behind it, nearest first. -/
inductive Nests (children : N → Children N) (arena : Arena N A β) : List Entry → Prop where
  | nil : Nests children arena []
  | cons {entry : Entry} {c : Context N A β} {pending : List Entry}
      (found : arena[entry.id]? = some c)
      (hangs : arena.Hangs children c (pending.filterMap Entry.leave?))
      (rest : Nests children arena pending) : Nests children arena (entry :: pending)

namespace Nests

variable {children : N → Children N} {arena arena' : Arena N A β} {c c' : Context N A β}
  {entry : Entry} {pending : List Entry}

omit [Identified N]

/-- Only the contexts of the entries matter. -/
theorem congr (h : Nests children arena pending)
    (hsame : ∀ i ∈ pending.map Entry.id, arena'[i]? = arena[i]?) :
    Nests children arena' pending := by
  induction h with
  | nil => exact .nil
  | cons found hangs rest ih =>
    obtain ⟨hentry, hpending⟩ := List.forall_mem_cons.mp hsame
    exact .cons (hentry.trans found) (hangs.congr fun i hi => hpending i (mem_map_id_of_leave hi))
      (ih hpending)

/-- The context that is taken up may change, if it stays in its place. -/
theorem modify (h : Nests children arena (entry :: pending))
    (hnodup : ((entry :: pending).map Entry.id).Nodup) (hc : arena[entry.id]? = some c)
    (hfirst : c'.first = c.first) (hlink : c'.link = c.link) :
    Nests children (arena.modify entry.id fun _ => c') (entry :: pending) := by
  -- neither an entry behind nor what stands above one is the context that changes
  have hnot : entry.id ∉ pending.map Entry.id := (List.nodup_cons.mp hnodup).1
  have hsame : ∀ i ∈ pending.map Entry.id,
      (arena.modify entry.id fun _ => c')[i]? = arena[i]? := by
    intro i hi
    rw [Array.getElem?_modify, if_neg]
    rintro rfl
    exact hnot hi
  cases h with
  | @cons _ d _ found hangs rest =>
    obtain rfl := Option.some.inj (found.symm.trans hc)
    refine .cons (Array.getElem?_modify_of_some found _) ?_ (rest.congr hsame)
    exact (hangs.of_eq hfirst hlink).congr fun i hi => hsame i (mem_map_id_of_leave hi)

/-- The contexts of all entries are known. -/
theorem lt_size (h : Nests children arena pending) :
    ∀ i ∈ pending.map Entry.id, i < arena.size := by
  induction h with
  | nil => exact fun i hi => absurd hi List.not_mem_nil
  | cons found hangs rest ih =>
    exact List.forall_mem_cons.mpr ⟨Arena.lt_size_of_getElem? found, ih⟩

/-- Visits may be put in front. -/
theorem visits (h : Nests children arena pending) {ids : List Nat}
    (hids : ∀ i ∈ ids, ∃ c, arena[i]? = some c ∧
      arena.Hangs children c (pending.filterMap Entry.leave?)) :
    Nests children arena (ids.map Entry.visit ++ pending) := by
  induction ids with
  | nil => exact h
  | cons i ids ih =>
    obtain ⟨⟨c, hc, hangs⟩, hrest⟩ := List.forall_mem_cons.mp hids
    exact .cons hc ((filterMap_leave?_visits ids pending).symm ▸ hangs) (ih hrest)

/-- A node is left behind its children, and they hang below it. -/
theorem discover {id : Nat} (hc : arena[id]? = some c)
    (hangs : arena.Hangs children c (pending.filterMap Entry.leave?))
    (h : Nests children arena pending) {ids : List Nat}
    (hids : ∀ i ∈ ids, ∃ location child accumulate,
      arena[i]? = some (.discover child (some id) (some location) accumulate) ∧
        (location, child) ∈ (children c.node).located) :
    Nests children arena (ids.map Entry.visit ++ .leave id :: pending) := by
  have hleave : Nests children arena (.leave id :: pending) := .cons hc hangs h
  refine hleave.visits fun i hi => ?_
  obtain ⟨location, child, accumulate, hfound, hchild⟩ := hids i hi
  exact ⟨_, hfound, hangs.discover hc hchild accumulate⟩

end Nests

/-! ### Dialogues -/

variable [DecidableEq κ]

/-- A callback in full. -/
structure Dialogue (N A : Type) {κ : Type} (β : κ → Type) [Identified N] where
  event : Event N A β
  /-- What the callback saw at its looks. -/
  shown : List (Cursor N A β)
  /-- What the callback asked for. -/
  asked : List (Request N A β)
  /-- The node of the context when the callback was over. -/
  node : N

/-- All that a callback could see: what there was when it was called, and at its looks. -/
def Dialogue.views (d : Dialogue N A β) : List (Cursor N A β) :=
  d.event.seen :: d.shown

/-- The dialogues **about** a context. -/
def about (past : List (Dialogue N A β)) (id : Nat) : List (Dialogue N A β) :=
  past.filter (·.event.id = id)

/-- The value that was **stored last** under a key of a context. -/
def lastStored (past : List (Dialogue N A β)) (id : Nat) (k : κ) : Option (β k) :=
  ((about past id).flatMap Dialogue.asked).reverse.findSome? (Request.stored? k)

/-- The node with which the **last** callback left a context. -/
def lastNode (past : List (Dialogue N A β)) (id : Nat) : Option N :=
  (about past id).getLast?.map Dialogue.node

section About

variable {past : List (Dialogue N A β)} {d : Dialogue N A β} {id : Nat}

omit [DecidableEq κ] in
theorem about_snoc (past : List (Dialogue N A β)) (d : Dialogue N A β) :
    about (past ++ [d]) d.event.id = about past d.event.id ++ [d] := by
  rw [about, about, List.filter_append, List.filter_cons_of_pos (by simp), List.filter_nil]

omit [DecidableEq κ] in
theorem about_snoc_of_ne (h : d.event.id ≠ id) : about (past ++ [d]) id = about past id := by
  rw [about, about, List.filter_append, List.filter_cons_of_neg (by simpa using h),
    List.filter_nil, List.append_nil]

omit [DecidableEq κ] in
theorem about_eq_nil (h : ∀ d ∈ past, d.event.id ≠ id) : about past id = [] :=
  List.filter_eq_nil_iff.mpr (by simpa using h)

theorem lastStored_snoc (past : List (Dialogue N A β)) (d : Dialogue N A β) (k : κ) :
    lastStored (past ++ [d]) d.event.id k =
      (d.asked.reverse.findSome? (Request.stored? k)).or (lastStored past d.event.id k) := by
  rw [lastStored, lastStored, about_snoc, List.flatMap_append, List.flatMap_singleton,
    List.reverse_append, List.findSome?_append]

omit [DecidableEq κ] in
theorem lastNode_snoc (past : List (Dialogue N A β)) (d : Dialogue N A β) :
    lastNode (past ++ [d]) d.event.id = some d.node := by
  rw [lastNode, about_snoc, List.getLast?_concat, Option.map_some]

omit [DecidableEq κ] in
/-- A context that is still open has been called back. -/
theorem exists_lastNode (h : id ∈ stillOpen (past.map Dialogue.event)) :
    ∃ node, lastNode past id = some node := by
  have hopened := List.mem_of_mem_filter (List.mem_reverse.mp h)
  obtain ⟨e, he, rfl⟩ := List.mem_map.mp hopened
  obtain ⟨d, hd, rfl⟩ := List.mem_map.mp (List.mem_of_mem_filter he)
  have hmem : d ∈ about past d.event.id := List.mem_filter.mpr ⟨hd, by simp⟩
  rw [lastNode, List.getLast?_eq_some_getLast (List.ne_nil_of_mem hmem)]
  exact ⟨_, rfl⟩

end About

namespace State

/-- Where the callback for an entry works. -/
def spotAt (s : State N A β) (entry : Entry) (c : Context N A β) : Spot N A β :=
  ⟨entry.id, s.readied (s.phaseOf entry) c⟩

/-- The ledger with which the callback for an entry begins. -/
def ledgerAt (s : State N A β) (entry : Entry) (c : Context N A β) : Ledger N A β :=
  s.ledger.modifyAt entry.id fun _ => s.readied (s.phaseOf entry) c

/-- What the callback for an entry sees of a ledger. -/
def viewAt (s : State N A β) (plan : Plan N A β) (entry : Entry) (c : Context N A β) :
    Ledger N A β → Cursor N A β :=
  (s.spotAt entry c).cursor plan.rootVars s.visited

/-- The ledger with which the callback for an entry ends. -/
def ledgerAfter (s : State N A β) (plan : Plan N A β) (visitor : SequentialVisitor σ N A β)
    (entry : Entry) (c : Context N A β) (own : σ) : Ledger N A β :=
  (Program.run (s.viewAt plan entry c) (s.spotAt entry c).perform
    (visitor.on (s.phaseOf entry) own) (s.ledgerAt entry c)).2

/-- The callback that is made for an entry in full, if its context is known. -/
def dialogue? (s : State N A β) (plan : Plan N A β) (visitor : SequentialVisitor σ N A β)
    (entry : Entry) (own : σ) : Option (Dialogue N A β) := do
  let c ← s.ledger.arena[entry.id]?
  let event ← s.event? plan visitor entry own
  let program := visitor.on (s.phaseOf entry) own
  let view := s.viewAt plan entry c
  let perform := (s.spotAt entry c).perform
  pure
    { event
      shown := Program.shown view perform program (s.ledgerAt entry c)
      asked := (Program.asked view perform program (s.ledgerAt entry c)).map Prod.snd
      node := ((s.spotAt entry c).context (s.ledgerAfter plan visitor entry c own)).node }

end State

section Callback

variable {plan : Plan N A β} {visitor : SequentialVisitor σ N A β} {entry : Entry}
  {s s' : State N A β} {c : Context N A β} {own own' : σ} {d : Dialogue N A β} {e : Event N A β}

/-- **What a callback sees and leaves** are ledgers on which it has worked. -/
theorem State.dialogue?_worked (hc : s.ledger.arena[entry.id]? = some c)
    (he : s.event? plan visitor entry own = some e) :
    ∃ d, s.dialogue? plan visitor entry own = some d ∧ d.event = e ∧
      (∀ v ∈ d.views, ∃ l vars, l.Worked s.ledger.arena entry.id c vars ∧
        v = s.viewAt plan entry c l) ∧
      (s.ledgerAfter plan visitor entry c own).Worked s.ledger.arena entry.id c
        (d.asked.foldl Request.store c.vars) ∧
      d.node = ((s.spotAt entry c).context (s.ledgerAfter plan visitor entry c own)).node := by
  have hstart : (s.ledgerAt entry c).Worked s.ledger.arena entry.id c c.vars :=
    ⟨s.readied (s.phaseOf entry) c, rfl, rfl, rfl, rfl⟩
  have hd : s.dialogue? plan visitor entry own = some
      { event := e
        shown := Program.shown (s.viewAt plan entry c) (s.spotAt entry c).perform
          (visitor.on (s.phaseOf entry) own) (s.ledgerAt entry c)
        asked := (Program.asked (s.viewAt plan entry c) (s.spotAt entry c).perform
          (visitor.on (s.phaseOf entry) own) (s.ledgerAt entry c)).map Prod.snd
        node := ((s.spotAt entry c).context (s.ledgerAfter plan visitor entry c own)).node } := by
    rw [State.dialogue?, hc, he]
    rfl
  refine ⟨_, hd, rfl, fun v hv => ?_, hstart.run (s.spotAt entry c) hc _ _, rfl⟩
  rcases List.mem_cons.mp hv with rfl | hv
  · rw [State.event?, hc] at he
    obtain rfl := Option.some.inj he
    exact ⟨_, _, hstart, rfl⟩
  · have hperform : ∀ (q : Request N A β) (l : Ledger N A β),
        (∃ vars, l.Worked s.ledger.arena entry.id c vars) →
          ∃ vars, (((s.spotAt entry c).perform q).runWith l).2.Worked s.ledger.arena entry.id c
            vars := by
      rintro q l ⟨vars, hl⟩
      exact ⟨_, hl.perform (s.spotAt entry c) hc q⟩
    obtain ⟨l, ⟨vars, hl⟩, rfl⟩ := Program.exists_of_mem_shown hperform _ ⟨_, hstart⟩ hv
    exact ⟨l, vars, hl, rfl⟩

/-- **What a step leaves**: the ledger as the callback left it, and the children of the node if it
was opened. -/
theorem step_leaves (hc : s.ledger.arena[entry.id]? = some c)
    (he : s.event? plan visitor entry own = some e)
    (h : (step plan visitor entry s).runWith own = (.ok s', own')) :
    e.opens = false ∧ s'.ledger = s.ledgerAfter plan visitor entry c own ∨
      e.opens = true ∧ ∃ s₁ : State N A β,
        s₁.ledger = s.ledgerAfter plan visitor entry c own ∧ s₁.pending = s.pending ∧
          s' = s₁.expand plan entry.id := by
  obtain ⟨-, hphase, -, -, -, houtcome⟩ := State.event?_spec hc he
  rw [step_eq hc] at h
  obtain ⟨⟨control, s₁⟩, own₁, hcall, hreact⟩ := Attempt.exists_of_bind_ok h
  rw [hcall] at houtcome
  have hleft : s₁.ledger = s.ledgerAfter plan visitor entry c own ∧ s₁.pending = s.pending := by
    rw [State.eq_of_call_ok hc hcall]
    exact ⟨rfl, rfl⟩
  obtain ⟨hledger, hpending⟩ := hleft
  have hopens : e.opens = true ↔ s.phaseOf entry = .enter ∧ control = .proceed := by
    rw [Event.opens_iff, hphase, houtcome]
    exact and_congr_right fun _ => ⟨fun h => Except.ok.inj h, congrArg _⟩
  rw [Bool.eq_false_iff, Ne, hopens]
  cases hp : s.phaseOf entry with
  | enter =>
    rw [hp] at hreact
    cases control with
    | proceed =>
      exact .inr ⟨⟨rfl, rfl⟩, { s₁ with visited := identity c.first :: s₁.visited }, hledger,
        hpending, (Except.ok.inj (Prod.mk.inj hreact).1).symm⟩
    | quit | abort =>
      obtain rfl := Except.ok.inj (Prod.mk.inj hreact).1
      exact .inl ⟨fun h => absurd h.2 (by decide), hledger⟩
  | leave | backRef =>
    rw [hp] at hreact
    obtain ⟨-, rfl | rfl⟩ := obey_cases hreact <;>
      exact .inl ⟨fun h => absurd h.1 (by decide), hledger⟩

end Callback

/-! ### Exact views -/

/-- The contexts that are open **above** a context, nearest first. -/
def openAbove (past : List (Dialogue N A β)) (id : Nat) : List Nat :=
  (stillOpen (past.map Dialogue.event)).filter (· ≠ id)

/-- The view upwards from a context is **exact** after the callbacks so far. -/
structure ExactAbove (plan : Plan N A β) (past : List (Dialogue N A β)) (id : Nat)
    (v : Cursor N A β) : Prop where
  /-- The links lead up through the open contexts, and each has the next lower one below it. -/
  hangs : v.arena.Hangs plan.children v.here (openAbove past id)
  parent : v.parent? = (openAbove past id).head?.bind (v.arena[·]?)
  above : v.above.map some = (openAbove past id).map (v.arena[·]?)
  /-- The nodes above are those with which the open contexts were left by the callbacks on them. -/
  parents : v.parents.map some = (openAbove past id).map (lastNode past)
  crumbs : v.crumbs.map (fun crumb => some crumb.node) = (openAbove past id).map (lastNode past)
  /-- Every crumb leads to the next lower context, as its node was first met. -/
  valid : ∀ {i : Nat} {crumb : Crumb N}, v.crumbs[i]? = some crumb →
    ∃ below, (v.here :: v.above)[i]? = some below ∧
      (crumb.location, below.first) ∈ (plan.children crumb.node).located ∧
      ((plan.children crumb.node).roles.Nodup →
        (plan.children crumb.node).at? crumb.location = some below.first)
  /-- What is inherited was stored last on the nearest of these contexts that has a value. -/
  inherited : ∀ k, v.arena.inherited? v.rootVars v.here k =
    ((openAbove past id).findSome? fun i => lastStored past i k).or (plan.rootVars.get? k)

/-- All contexts stand **as they were left** by the callbacks on them. -/
structure AsLeft (past : List (Dialogue N A β)) (arena : Arena N A β) : Prop where
  vars : ∀ ⦃i : Nat⦄ ⦃c : Context N A β⦄, arena[i]? = some c →
    ∀ k, c.vars.get? k = lastStored past i k
  node : ∀ ⦃i : Nat⦄ ⦃c : Context N A β⦄, arena[i]? = some c → ∀ n ∈ lastNode past i, c.node = n

section ExactAbove

variable {plan : Plan N A β} {past : List (Dialogue N A β)} {id : Nat} {v : Cursor N A β}

/-- What stands above, as it was left, makes a view exact. -/
theorem ExactAbove.of_hangs (hangs : v.arena.Hangs plan.children v.here (openAbove past id))
    (hnodup : (openAbove past id).Nodup)
    (hvars : ∀ i ∈ openAbove past id, ∀ c, v.arena[i]? = some c → ∀ k,
      c.vars.get? k = lastStored past i k)
    (hnode : ∀ i ∈ openAbove past id, ∀ c, v.arena[i]? = some c → lastNode past i = some c.node)
    (hroot : v.rootVars = plan.rootVars) : ExactAbove plan past id v := by
  have hlength := hangs.length_le hnodup
  have habove : (v.arena.ancestors v.here).map (fun p => some p.2) =
      (openAbove past id).map (v.arena[·]?) := hangs.climb hlength
  have hnodes : (v.arena.ancestors v.here).map (fun p => some p.2.node) =
      (openAbove past id).map (lastNode past) := by
    have hmap := congrArg (List.map (Option.map Context.node)) habove
    rw [List.map_map, List.map_map] at hmap
    refine hmap.trans (List.map_congr_left fun i hi => ?_)
    obtain ⟨c, hc⟩ := hangs.exists_context i hi
    rw [hnode i hi c hc, Function.comp_apply, hc, Option.map_some]
  refine ⟨hangs, hangs.parent, ?_, ?_, ?_, fun {i crumb} hcrumb => ?_, fun k => ?_⟩
  · rw [Cursor.above, List.map_map]
    exact habove
  · rw [Cursor.parents, List.map_map]
    exact hnodes
  · rw [Cursor.crumbs, Arena.crumbs, List.map_map]
    exact hnodes
  · rw [Cursor.crumbs, Arena.crumbs, List.getElem?_map] at hcrumb
    obtain ⟨p, hp, rfl⟩ := Option.map_eq_some_iff.mp hcrumb
    obtain ⟨below, hbelow, hlocated⟩ := hangs.climb_located hlength hp
    exact ⟨below, hbelow, hlocated, fun hroles => (Children.mem_located hroles).mp hlocated⟩
  · rw [Arena.inherited?, hroot]
    have hfound : ((v.arena.ancestors v.here).findSome? fun p => p.2.vars.get? k) =
        (openAbove past id).findSome? fun i => lastStored past i k :=
      hangs.climb_findSome? hlength fun i hi c hc => hvars i hi c hc k
    rw [hfound]
    cases (openAbove past id).findSome? fun i => lastStored past i k <;> rfl

end ExactAbove

/-! ### What every step keeps -/

section Step

variable {plan : Plan N A β} {visitor : SequentialVisitor σ N A β} {entry : Entry}
  {rest : List Entry} {past : List (Dialogue N A β)} {s s' : State N A β} {c : Context N A β}
  {d : Dialogue N A β} {l : Ledger N A β} {arena : Arena N A β} {own own' : σ} {id : Nat}

omit [Identified N] [DecidableEq κ] in
/-- What is left behind an entry. -/
theorem filter_leave? (hnodup : ((entry :: rest).map Entry.id).Nodup) :
    ((entry :: rest).filterMap Entry.leave?).filter (· ≠ entry.id) =
      rest.filterMap Entry.leave? := by
  have hrest : (rest.filterMap Entry.leave?).filter (· ≠ entry.id) =
      rest.filterMap Entry.leave? := by
    refine List.filter_eq_self.mpr fun i hi => decide_eq_true ?_
    rintro rfl
    exact (List.nodup_cons.mp hnodup).1 (mem_map_id_of_leave hi)
  cases entry with
  | visit id => exact hrest
  | leave id =>
    show (id :: rest.filterMap Entry.leave?).filter (· ≠ id) = _
    rw [List.filter_cons_of_neg (by simp)]
    exact hrest

/-- A callback leaves its context with what it asked for, and the others alone. -/
theorem AsLeft.call (h : AsLeft past arena) (hc : arena[d.event.id]? = some c)
    (hworked : l.Worked arena d.event.id c (d.asked.foldl Request.store c.vars))
    (hnode : ∀ c', l.arena[d.event.id]? = some c' → d.node = c'.node) :
    AsLeft (past ++ [d]) l.arena := by
  obtain ⟨c', harena, -, -, hvars⟩ := hworked
  have hother : ∀ i, d.event.id ≠ i → l.arena[i]? = arena[i]? := by
    intro i hne
    rw [harena, Array.getElem?_modify, if_neg hne]
  have hat : l.arena[d.event.id]? = some c' := by rw [harena, Array.getElem?_modify_of_some hc]
  constructor
  · intro i c₁ hc₁ k
    by_cases hid : d.event.id = i
    · subst hid
      obtain rfl := Option.some.inj (hat.symm.trans hc₁)
      rw [hvars, Request.get?_foldl_store, lastStored_snoc, h.vars hc]
    · rw [lastStored, about_snoc_of_ne hid]
      exact h.vars ((hother i hid).symm.trans hc₁) k
  · intro i c₁ hc₁ n hn
    by_cases hid : d.event.id = i
    · subst hid
      rw [lastNode_snoc, Option.mem_some_iff, hnode c₁ hc₁] at hn
      exact hn
    · rw [lastNode, about_snoc_of_ne hid] at hn
      exact h.node ((hother i hid).symm.trans hc₁) n hn

/-- Contexts that are discovered are left bare by all callbacks, for there was none on them. -/
theorem AsLeft.expand (h : AsLeft past s.ledger.arena)
    (hpast : ∀ d ∈ past, d.event.id < s.ledger.arena.size) :
    AsLeft past (s.expand plan id).ledger.arena := by
  have hnew : ∀ {i : Nat}, s.ledger.arena.size ≤ i → ∀ d ∈ past, d.event.id ≠ i :=
    fun hi d hd heq => absurd (hpast d hd) (by omega)
  constructor
  · intro i c hc k
    rcases State.expand_cases hc with ⟨c', hc', _, rfl⟩ | ⟨hi, _, -, p, -, rfl⟩
    · exact h.vars hc' k
    · rw [lastStored, about_eq_nil (hnew hi)]
      rfl
  · intro i c hc n hn
    rcases State.expand_cases hc with ⟨c', hc', _, rfl⟩ | ⟨hi, -⟩
    · exact h.node hc' n hn
    · rw [lastNode, about_eq_nil (hnew hi)] at hn
      exact absurd hn (Option.not_mem_none n)

omit [DecidableEq κ] in
/-- **Children hang below the node that was opened**: it stands as it will until it is left. -/
theorem Nests.expand (hmode : plan.mode = .depthFirst)
    (h : Nests plan.children s.ledger.arena (.visit id :: s.pending))
    (hnodup : ((Entry.visit id :: s.pending).map Entry.id).Nodup) :
    Nests plan.children (s.expand plan id).ledger.arena (s.expand plan id).pending := by
  cases h with
  | @cons _ c _ found hangs rest =>
    change s.ledger.arena[id]? = some c at found
    have hid : id < s.ledger.arena.size := Arena.lt_size_of_getElem? found
    have hnot : id ∉ s.pending.map Entry.id := (List.nodup_cons.mp hnodup).1
    let c₁ : Context N A β :=
      { c with children := some ((plan.below c).number s.ledger.arena.size) }
    have hat : (s.expand plan id).ledger.arena[id]? = some c₁ := s.expand_self found plan
    have hsame : ∀ i ∈ s.pending.map Entry.id,
        (s.expand plan id).ledger.arena[i]? = s.ledger.arena[i]? := by
      intro i hi
      exact s.expand_old plan (rest.lt_size i hi) fun heq => hnot (heq ▸ hi)
    have habove : (s.expand plan id).ledger.arena.Hangs plan.children c₁
        (s.pending.filterMap Entry.leave?) :=
      Arena.Hangs.of_eq (hangs.congr fun i hi => hsame i (mem_map_id_of_leave hi)) rfl rfl
    rw [State.expand_pending found, hmode, Mode.schedule, List.append_assoc]
    refine Nests.discover hat habove (rest.congr hsame) fun i hi => ?_
    obtain ⟨hle, hlt⟩ := List.mem_range'_1.mp hi
    obtain ⟨d, hd⟩ : ∃ d, (s.expand plan id).ledger.arena[i]? = some d :=
      ⟨_, Array.getElem?_eq_getElem (by rw [State.expand_size found]; exact hlt)⟩
    rcases State.expand_cases hd with ⟨d', hd', -⟩ | ⟨-, c', hc', p, hp, rfl⟩
    · exact absurd (Arena.lt_size_of_getElem? hd') (Nat.not_lt.mpr hle)
    · obtain rfl := Option.some.inj (found.symm.trans hc')
      exact ⟨p.1, p.2, s.accumulate, hd, Plan.mem_of_below hp⟩

/-- What holds of a walk that has not been quit, and of its callbacks so far. -/
structure Nested (plan : Plan N A β) (past : List (Dialogue N A β)) (s : State N A β) : Prop where
  running : Running (past.map Dialogue.event) s
  /-- What is still to be left is what is open. -/
  leaves : s.pending.filterMap Entry.leave? = stillOpen (past.map Dialogue.event)
  nests : Nests plan.children s.ledger.arena s.pending
  asLeft : AsLeft past s.ledger.arena

namespace Nested

theorem nodup (h : Nested plan past s) (hpending : s.pending = entry :: rest) :
    ((entry :: rest).map Entry.id).Nodup :=
  hpending ▸ h.running.pending_nodup

/-- Above a context that is taken up stands what is left behind it. -/
theorem openAbove_eq (h : Nested plan past s) (hpending : s.pending = entry :: rest) :
    openAbove past entry.id = rest.filterMap Entry.leave? := by
  rw [openAbove, ← h.leaves, hpending, filter_leave? (h.nodup hpending)]

/-- The entries stay nested while a callback works on the context of the first one. -/
theorem worked (h : Nested plan past s) (hpending : s.pending = entry :: rest)
    (hc : s.ledger.arena[entry.id]? = some c) {vars : Vars β}
    (hl : l.Worked s.ledger.arena entry.id c vars) :
    Nests plan.children l.arena (entry :: rest) := by
  obtain ⟨c', harena, hfirst, hlink, -⟩ := hl
  have hnests := h.nests
  rw [hpending] at hnests
  rw [harena]
  exact hnests.modify (h.nodup hpending) hc hfirst hlink

/-- **Whatever a callback sees is exact**, at the start and after all that it has asked for. -/
theorem exactAbove (h : Nested plan past s) (hpending : s.pending = entry :: rest)
    (hc : s.ledger.arena[entry.id]? = some c) {vars : Vars β}
    (hl : l.Worked s.ledger.arena entry.id c vars) (start : Context N A β)
    (visited : List (Identity N)) :
    ExactAbove plan past entry.id (Spot.cursor ⟨entry.id, start⟩ plan.rootVars visited l) := by
  have hnests := h.worked hpending hc hl
  have hnodup := h.nodup hpending
  have hopen := h.openAbove_eq hpending
  obtain ⟨c', harena, -, -, -⟩ := hl
  have hhere : (Spot.cursor ⟨entry.id, start⟩ plan.rootVars visited l).here = c' := by
    rw [Spot.cursor, Spot.context, harena]
    exact Array.getD_modify_const _ (Arena.lt_size_of_getElem? hc) _ _
  have hat : l.arena[entry.id]? = some c' := by
    rw [harena, Array.getElem?_modify_of_some hc]
  cases hnests with
  | cons found hangs _ =>
    obtain rfl := Option.some.inj (found.symm.trans hat)
    -- what stands above is not the context at hand, so it is as it was left
    have hasLeft : ∀ i ∈ openAbove past entry.id, l.arena[i]? = s.ledger.arena[i]? := by
      intro i hi
      rw [hopen] at hi
      rw [harena, Array.getElem?_modify, if_neg]
      rintro rfl
      exact (List.nodup_cons.mp hnodup).1 (mem_map_id_of_leave hi)
    refine .of_hangs ?_ ?_ (fun i hi c₁ hc₁ => ?_) (fun i hi c₁ hc₁ => ?_) rfl
    · rw [hhere, hopen]
      exact hangs
    · rw [hopen]
      exact (List.nodup_append'.mp
        ((map_id_perm rest).nodup_iff.mp (List.nodup_cons.mp hnodup).2)).2.1
    · exact h.asLeft.vars ((hasLeft i hi).symm.trans hc₁)
    · obtain ⟨n, hn⟩ := exists_lastNode (List.mem_of_mem_filter hi)
      rw [hn, h.asLeft.node ((hasLeft i hi).symm.trans hc₁) n hn]

/-- A callback that does not open its context may leave it. -/
theorem leaves_of_shut (h : Nested plan past s) (hpending : s.pending = entry :: rest)
    (hentry : d.event.entry = entry) (hshut : d.event.opens = false) :
    rest.filterMap Entry.leave? = stillOpen (past.map Dialogue.event ++ [d.event]) := by
  subst hentry
  by_cases hphase : d.event.phase = .leave
  · have hopen := h.openAbove_eq hpending
    rw [Event.entry_of_leave hphase] at hopen
    rw [stillOpen_snoc_leave hphase, ← hopen]
    rfl
  · rw [stillOpen_snoc_shut hphase hshut, ← h.leaves, hpending, Event.entry_of_ne hphase]
    rfl

/-- A context that is opened is to be left before all that are open already. -/
theorem leaves_of_opens (h : Nested plan past s) (hpending : s.pending = .visit d.event.id :: rest)
    (hopens : d.event.opens = true) : d.event.id :: rest.filterMap Entry.leave? =
      stillOpen (past.map Dialogue.event ++ [d.event]) := by
  have hnot : d.event.id ∉ (calls .leave (past.map Dialogue.event)).map Event.id :=
    h.running.not_left (hpending ▸ List.mem_cons_self)
  rw [stillOpen_snoc_opens hopens hnot, ← h.leaves, hpending]
  rfl

/-- **What every step keeps**, unless the walk is quit. -/
theorem step (hmode : plan.mode = .depthFirst) (h : Nested plan past s)
    (hpending : s.pending = entry :: rest) (hc : s.ledger.arena[entry.id]? = some c)
    (htakes : d.event.Takes s entry)
    (hcontinues : Continues plan (fun _ _ _ => True) { s with pending := rest } d.event (.ok s'))
    (hworked : l.Worked s.ledger.arena entry.id c (d.asked.foldl Request.store c.vars))
    (hnode : ∀ c', l.arena[entry.id]? = some c' → d.node = c'.node)
    (hleaves : d.event.opens = false ∧ s'.ledger = l ∨
      d.event.opens = true ∧ ∃ s₁ : State N A β,
        s₁.ledger = l ∧ s₁.pending = rest ∧ s' = s₁.expand plan entry.id) :
    Nested plan (past ++ [d]) s' ∨ s'.pending = [] := by
  have hevents : (past ++ [d]).map Dialogue.event = past.map Dialogue.event ++ [d.event] := by
    rw [List.map_append, List.map_singleton]
  have hid : entry.id = d.event.id := by
    rw [← htakes.entry, Event.entry]
    split <;> rfl
  have hnests := h.worked hpending hc hworked
  have hnodup := h.nodup hpending
  have hasLeft : AsLeft (past ++ [d]) l.arena :=
    h.asLeft.call (hid ▸ hc) (hid ▸ hworked) (hid ▸ hnode)
  rcases h.running.step hpending htakes hcontinues with hrunning | ⟨hnil, -⟩
  · rw [← hevents] at hrunning
    rcases hleaves with ⟨hshut, rfl⟩ | ⟨hopens, s₁, rfl, rfl, rfl⟩
    · cases hcontinues with
      | ended _ _ _ pending => exact .inr pending
      | opened opens => exact absurd (hshut.symm.trans opens) (by decide)
      | passed _ _ _ pending =>
        refine .inl ⟨hrunning, ?_, ?_, hasLeft⟩
        · rw [pending, hevents]
          exact h.leaves_of_shut hpending htakes.entry hshut
        · rw [pending]
          cases hnests with
          | cons _ _ rest => exact rest
    · -- only a visit opens its context
      obtain rfl : Entry.visit d.event.id = entry := by
        rw [← htakes.entry, Event.entry_of_ne (d.event.ne_leave hopens)]
      cases hcontinues with
      | ended _ _ _ pending => exact .inr pending
      | passed shut => exact absurd (shut.symm.trans hopens) (by decide)
      | opened _ _ _ _ _ pending =>
        refine .inl ⟨hrunning, ?_, hnests.expand hmode hnodup, hasLeft.expand ?_⟩
        · rw [pending, hevents, hmode, Mode.schedule, List.append_assoc, filterMap_leave?_visits]
          exact h.leaves_of_opens hpending hopens
        · -- the new contexts come after all that callbacks have been about
          intro x hx
          rw [hworked.size_eq]
          rcases List.mem_append.mp hx with hx | hx
          · exact h.running.past_lt _ (List.mem_map_of_mem hx)
          · obtain rfl := List.mem_singleton.mp hx
            exact Arena.lt_size_of_getElem? hc
  · exact .inr hnil

/-- A walk starts with the contexts of its roots, which have no variables and nothing above. -/
theorem start (plan : Plan N A β) (recording : Bool) (roots : List N) :
    Nested plan [] (Traversal.start plan recording roots) := by
  have hroot : ∀ {i : Nat} {c : Context N A β},
      (Traversal.start plan recording roots).ledger.arena[i]? = some c →
        ∃ root, c = Context.discover root none none plan.initial := by
    intro i c hc
    rw [Traversal.start, List.getElem?_toArray] at hc
    obtain ⟨root, -, rfl⟩ := List.mem_map.mp (List.mem_of_getElem? hc)
    exact ⟨root, rfl⟩
  have hpending : (Traversal.start plan recording roots).pending =
      (List.range roots.length).map Entry.visit ++ [] := (List.append_nil _).symm
  refine ⟨Running.start plan recording roots, ?_, ?_, fun i c hc k => ?_,
    fun i c hc n hn => absurd hn (Option.not_mem_none n)⟩
  · rw [hpending, filterMap_leave?_visits]
    rfl
  · rw [hpending]
    refine Nests.nil.visits fun i hi => ?_
    have hsize : i < (Traversal.start plan recording roots).ledger.arena.size := by
      simpa [Traversal.start] using hi
    obtain ⟨root, hdiscover⟩ := hroot (Array.getElem?_eq_getElem hsize)
    refine ⟨_, Array.getElem?_eq_getElem hsize, .top ?_⟩
    rw [hdiscover]
    rfl
  · obtain ⟨root, rfl⟩ := hroot hc
    rfl

/-- **A step** makes one callback, all that it sees is exact, and the walk stays nested. -/
theorem dialogue (hmode : plan.mode = .depthFirst) (h : Nested plan past s)
    (hpending : s.pending = entry :: rest) (visitor : SequentialVisitor σ N A β) (own : σ) :
    ∃ d, State.dialogue? { s with pending := rest } plan visitor entry own = some d ∧
      State.event? { s with pending := rest } plan visitor entry own = some d.event ∧
      (∀ v ∈ d.views, ExactAbove plan past d.event.id v) ∧
      ∀ s' own', (Traversal.step plan visitor entry { s with pending := rest }).runWith own =
        (.ok s', own') → Nested plan (past ++ [d]) s' ∨ s'.pending = [] := by
  have hknown : entry.id < (State.outline { s with pending := rest }).length :=
    h.running.known entry (hpending ▸ List.mem_cons_self)
  obtain ⟨e, he, htakes, -, hcontinues, -⟩ := step_continues (upholds_true plan visitor)
    (s := { s with pending := rest }) (fun _ _ _ => trivial) hknown own
  obtain ⟨c, hc⟩ : ∃ c, s.ledger.arena[entry.id]? = some c := by
    rw [State.outline, Arena.length_outline] at hknown
    exact ⟨_, Array.getElem?_eq_getElem hknown⟩
  obtain ⟨d, hd, rfl, hviews, hworked, hleft⟩ :=
    State.dialogue?_worked (s := { s with pending := rest }) hc he
  have hid : d.event.id = entry.id := by
    rw [← htakes.entry, Event.entry]
    split <;> rfl
  refine ⟨d, hd, he, fun v hv => ?_, fun s' own' hstep => ?_⟩
  · obtain ⟨l, vars, hl, rfl⟩ := hviews v hv
    rw [hid]
    exact h.exactAbove hpending hc hl _ _
  · rw [hstep] at hcontinues
    exact h.step hmode hpending hc
      ⟨htakes.entry, htakes.new, htakes.again, htakes.outline, htakes.here⟩ hcontinues hworked
      (fun c' hc' => hleft.trans (congrArg Context.node (Spot.context_eq hc')))
      (step_leaves hc he hstep)

end Nested

end Step

/-! ### Transcripts -/

section Transcript

variable {plan : Plan N A β} {visitor : SequentialVisitor σ N A β} {entry : Entry}
  {past : List (Dialogue N A β)} {s : State N A β}

/-- The dialogues of at most `limit` steps. -/
def dialogues (plan : Plan N A β) (visitor : SequentialVisitor σ N A β) :
    Nat → State N A β → σ → List (Dialogue N A β)
  | 0, _, _ => []
  | limit + 1, s, own =>
    match s.pending with
    | [] => []
    | entry :: pending =>
      (State.dialogue? { s with pending } plan visitor entry own).toList ++
        match (step plan visitor entry { s with pending }).runWith own with
        | (.ok s', own') => dialogues plan visitor limit s' own'
        | (.error _, _) => []

/-- The **transcript** of a walk: all its callbacks in full, in order. -/
def transcript (plan : Plan N A β) (visitor : SequentialVisitor σ N A β) (recording : Bool)
    (limit : Nat) (roots : List N) (own : σ) : List (Dialogue N A β) :=
  dialogues plan visitor limit (start plan recording roots) own

theorem dialogues_of_nil {limit : Nat} (h : s.pending = []) (own : σ) :
    dialogues plan visitor limit s own = [] := by
  cases limit with
  | zero => rfl
  | succ limit => rw [dialogues, h]

theorem dialogues_of_cons {limit : Nat} {pending : List Entry} (h : s.pending = entry :: pending)
    (own : σ) : dialogues plan visitor (limit + 1) s own =
      (State.dialogue? { s with pending } plan visitor entry own).toList ++
        match (step plan visitor entry { s with pending }).runWith own with
        | (.ok s', own') => dialogues plan visitor limit s' own'
        | (.error _, _) => [] := by
  rw [dialogues, h]

/-- **What is seen in a run is exact**, and its dialogues are its callbacks. -/
theorem dialogues_exactAbove (hmode : plan.mode = .depthFirst)
    (visitor : SequentialVisitor σ N A β) (limit : Nat) (own : σ)
    (h : Nested plan past s ∨ s.pending = []) :
    (dialogues plan visitor limit s own).map Dialogue.event = events plan visitor limit s own ∧
      ∀ (before after : List (Dialogue N A β)) (d : Dialogue N A β),
        dialogues plan visitor limit s own = before ++ d :: after →
          ∀ v ∈ d.views, ExactAbove plan (past ++ before) d.event.id v := by
  induction limit generalizing past s own with
  | zero => exact ⟨rfl, fun before after d heq => absurd heq.symm (by simp [dialogues])⟩
  | succ limit ih =>
    rcases h with h | hnil
    swap
    -- nothing is pending after the walk has been quit
    · rw [dialogues_of_nil hnil, events_of_nil hnil]
      exact ⟨rfl, fun before after d heq => absurd heq.symm (by simp)⟩
    cases hpending : s.pending with
    | nil =>
      rw [dialogues_of_nil hpending, events_of_nil hpending]
      exact ⟨rfl, fun before after d heq => absurd heq.symm (by simp)⟩
    | cons entry rest =>
      obtain ⟨d, hd, he, hexact, hstep⟩ := h.dialogue hmode hpending visitor own
      obtain ⟨more, hdialogues, hevents, hmore⟩ : ∃ more : List (Dialogue N A β),
          dialogues plan visitor (limit + 1) s own = d :: more ∧
            events plan visitor (limit + 1) s own = d.event :: more.map Dialogue.event ∧
            ∀ (before after : List (Dialogue N A β)) (d' : Dialogue N A β),
              more = before ++ d' :: after →
                ∀ v ∈ d'.views, ExactAbove plan (past ++ [d] ++ before) d'.event.id v := by
        rw [dialogues_of_cons hpending, events_of_cons hpending, hd, he]
        cases hrun : (step plan visitor entry { s with pending := rest }).runWith own with
        | mk out own₁ =>
          cases out with
          | error error => exact ⟨[], rfl, rfl, fun before after d' heq => by simp at heq⟩
          | ok s' =>
            obtain ⟨hmap, hafter⟩ := ih own₁ (hstep s' own₁ hrun)
            exact ⟨_, rfl, congrArg (d.event :: ·) hmap.symm, hafter⟩
      rw [hdialogues, hevents]
      refine ⟨rfl, fun before after d' heq => ?_⟩
      cases before with
      | nil =>
        obtain ⟨rfl, -⟩ := List.cons.inj heq
        rw [List.append_nil]
        exact hexact
      | cons b before =>
        obtain ⟨rfl, htail⟩ := List.cons.inj heq
        rw [List.append_cons]
        exact hmore before after d' htail

/-- **In a depth-first walk the view upwards is exact**, whatever the visitor changes, deletes and
stores, and however the walk ends: at every callback, and at every look of it, with regard to the
callbacks before. The transcript has all callbacks of the walk, as a visitor with a log writes them
down. -/
theorem transcript_exactAbove (hmode : plan.mode = .depthFirst)
    (visitor : SequentialVisitor σ N A β) (recording : Bool) (limit : Nat) (roots : List N)
    (own : σ) :
    (transcript plan visitor recording limit roots own).map Dialogue.event =
        callbacks plan visitor recording limit roots own ∧
      ((walk plan visitor.logging recording limit roots).runWith (own, [])).2.2 =
        (transcript plan visitor recording limit roots own).map
          (fun d => (d.event.phase, d.event.seen)) ∧
      ∀ {k : Nat} {d : Dialogue N A β},
        (transcript plan visitor recording limit roots own)[k]? = some d → ∀ v ∈ d.views,
          ExactAbove plan ((transcript plan visitor recording limit roots own).take k)
            d.event.id v := by
  obtain ⟨hevents, hexact⟩ := dialogues_exactAbove hmode visitor limit own
    (.inl (Nested.start plan recording roots))
  refine ⟨hevents, ?_, fun {k d} hd => ?_⟩
  · rw [walk_logging, callbacks, ← hevents, List.map_map]
    rfl
  · obtain ⟨hk, rfl⟩ := List.getElem?_eq_some_iff.mp hd
    refine hexact _ ((transcript plan visitor recording limit roots own).drop (k + 1)) _ ?_
    exact (List.take_append_drop k _).symm.trans (congrArg _ (List.drop_eq_getElem_cons hk))

end Transcript

/-! ### A node in disguise -/

open Arborist.Graph

/-- A node with two leaves below it, and a node that is more than a leaf, to be put in place of the
first. -/
def disguiseTable : Table where
  entries := [("a", ⟨[(.named "x", ["b", "d"])]⟩), ("c", ⟨[(.unnamed, ["e", "d"])]⟩)]

/-- The walk over the table, with a variable for all. -/
def disguisePlan : Plan Node Nat (fun _ : Unit => Nat) where
  children := disguiseTable.children
  initial := 0
  rootVars := Vars.empty.insert () 7

/-- A visitor that stores two values on `a`, goes on with `c` in place of `b`, and deletes `e`. -/
def disguiseVisitor : SequentialVisitor Unit Node Nat (fun _ : Unit => Nat) where
  enter := fun own => .look fun cursor =>
    if cursor.here.node.label = "a" then
      .ask (.setVar () 1) fun _ => .ask (.setVar () 2) fun _ => .done (.ok .proceed, own)
    else if cursor.here.node.label = "b" then
      .ask (.change (.listed "c")) fun _ => .done (.ok .proceed, own)
    else if cursor.here.node.label = "e" then
      .ask .delete fun _ => .look fun _ => .done (.ok .proceed, own)
    else .done (.ok .proceed, own)

/-- The transcript of the walk. -/
def disguiseRun : List (Dialogue Node Nat fun _ : Unit => Nat) :=
  transcript disguisePlan disguiseVisitor false 20 [.listed "a"] ()

/-- Below the changed node the view is exact, also when the context at hand has been deleted. -/
theorem transcript_exactAbove_disguise :
    disguisePlan.mode = .depthFirst ∧ openAbove (disguiseRun.take 2) 3 = [1, 0] ∧
      ∃ d, disguiseRun[2]? = some d ∧
        (d.views.map fun v => v.parents.map Node.label) = [["c", "a"], ["c", "a"], ["c", "a"]] ∧
        (d.views.map fun v => v.arena.inherited? v.rootVars v.here ()) =
          [some 2, some 2, some 2] ∧
        ∀ v ∈ d.views, ExactAbove disguisePlan (disguiseRun.take 2) 3 v := by
  obtain ⟨d, hd⟩ : ∃ d, disguiseRun[2]? = some d :=
    Option.isSome_iff_exists.mp (by decide +kernel)
  have hid : disguiseRun[2]?.map (fun d => d.event.id) = some 3 := by decide +kernel
  have hparents : disguiseRun[2]?.map (fun d => d.views.map fun v => v.parents.map Node.label) =
      some [["c", "a"], ["c", "a"], ["c", "a"]] := by decide +kernel
  have hinherited : disguiseRun[2]?.map (fun d => d.views.map fun v =>
      v.arena.inherited? v.rootVars v.here ()) = some [some 2, some 2, some 2] := by
    decide +kernel
  rw [hd, Option.map_some, Option.some_inj] at hid hparents hinherited
  have hmode : disguisePlan.mode = .depthFirst := rfl
  have hexact :=
    (transcript_exactAbove hmode disguiseVisitor false 20 [.listed "a"] ()).2.2 hd
  rw [hid] at hexact
  exact ⟨hmode, by decide +kernel, d, hd, hparents, hinherited, hexact⟩

end Traversal

end Arborist
