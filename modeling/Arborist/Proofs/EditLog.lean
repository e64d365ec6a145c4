import Arborist.Proofs.Bookkeeping
import Arborist.Proofs.Positions

/-!
# The edit log and the contexts

During a transformation a ledger keeps two accounts of the same edits: what the contexts say about
their nodes, and the log of the edits recorded so far. The two are **in step** (`Ledger.InStep`) if
every changed context has exactly one replacement in the log at its position, every deleted one
exactly one deletion, and the log replaces and deletes nothing else. They are **faithful**
(`Ledger.Faithful`) if moreover each replacement carries the node of its context.

* `Ledger.Turn` says what a request can do to the context and to the log, and `Spot.perform_turn`
  that it does nothing else.
* `Ledger.InStep.turn`: every request keeps the accounts in step.
* `Ledger.Faithful.turn`: a context that is changed again has its edit looked up by the identity of
  its node, and so the accounts stay faithful if no edit recorded before its own carries that node.
-/

namespace Arborist

variable {N A κ : Type} {β : κ → Type}

/-- What an edit is about: its kind and its position. -/
def Zipper.mark (z : Zipper N) : Edit × List Location :=
  (z.edit, z.position)

/-- Whether a context says that its node **underwent** an edit of the given kind. -/
def Context.underwent (c : Context N A β) : Edit → Bool
  | .replace => c.changed
  | .delete => c.deleted
  | .insertBefore | .insertAfter => false

/-- Whether a request replaces the node. -/
def Request.replaces : Request N A β → Bool
  | .replace _ => true
  | _ => false

namespace Ledger

/-- The edits recorded so far. -/
def log (l : Ledger N A β) : List (Zipper N) :=
  l.edits.getD []

/-- The contexts and the log are **in step**. -/
structure InStep (l : Ledger N A β) : Prop where
  /-- The positions tell the contexts apart. -/
  tidy : l.arena.Tidy
  recording : l.edits = some l.log
  /-- No context is both changed and deleted. -/
  once : ∀ {id : Nat} {c : Context N A β}, l.arena[id]? = some c → c.changed = true →
    c.deleted = false
  /-- A context has one edit of each kind that it underwent, and no other replacement or
  deletion. -/
  counted : ∀ {id : Nat} {c : Context N A β} {edit : Edit}, l.arena[id]? = some c →
    edit.inserts = false →
    (l.log.map Zipper.mark).count (edit, l.arena.position c) = (c.underwent edit).toNat
  /-- Nothing is replaced or deleted but the nodes of contexts. -/
  placed : ∀ z ∈ l.log, z.edit.inserts = false →
    ∃ (id : Nat) (c : Context N A β), l.arena[id]? = some c ∧ z.position = l.arena.position c

/-- The replacement of a changed context carries its node. -/
def Faithful (l : Ledger N A β) : Prop :=
  ∀ (id : Nat) (c : Context N A β), l.arena[id]? = some c → c.changed = true →
    ∃ z ∈ l.log, z.mark = (.replace, l.arena.position c) ∧ z.node = c.node

/-- The ledger with another context at a place, and another log. -/
def revise (l : Ledger N A β) (id : Nat) (c : Context N A β) (log : List (Zipper N)) :
    Ledger N A β where
  arena := l.arena.modify id fun _ => c
  edits := some log

variable {l : Ledger N A β} {id : Nat} {c c' : Context N A β} {log' : List (Zipper N)}

@[simp] theorem log_revise : (l.revise id c log').log = log' := rfl

/-- The contexts of a revised ledger. -/
theorem revise_cases {j : Nat} {d : Context N A β} (h : (l.revise id c' log').arena[j]? = some d) :
    j = id ∧ d = c' ∨ j ≠ id ∧ l.arena[j]? = some d := by
  rw [revise, Array.getElem?_modify] at h
  split at h
  · next hid =>
    obtain ⟨_, -, rfl⟩ := Option.map_eq_some_iff.mp h
    exact .inl ⟨hid.symm, rfl⟩
  · next hid => exact .inr ⟨Ne.symm hid, h⟩

theorem getElem?_revise (hc : l.arena[id]? = some c) :
    (l.revise id c' log').arena[id]? = some c' := by
  rw [revise, Array.getElem?_modify_of_some hc]

theorem revise_self (hc : l.arena[id]? = some c) (hrecording : l.edits = some log') :
    l.revise id c log' = l := by
  rw [revise, Arena.modify_self hc, ← hrecording]

theorem record_eq (hc : l.arena[id]? = some c) (hrecording : l.edits = some log') (z : Zipper N) :
    l.record z = l.revise id c (log' ++ [z]) :=
  calc l.record z = (l.revise id c log').record z := by rw [revise_self hc hrecording]
    _ = l.revise id c (log' ++ [z]) := rfl

theorem modifyAt_eq (hc : l.arena[id]? = some c) (hrecording : l.edits = some log')
    (f : Context N A β → Context N A β) : l.modifyAt id f = l.revise id (f c) log' := by
  rw [modifyAt, revise, Arena.modify_eq hc, ← hrecording]

section Links

variable (hc : l.arena[id]? = some c) (hlink : c'.link = c.link)

include hc hlink

theorem sameLinks_revise (k : Nat) : Arena.SameLinks k l.arena (l.revise id c' log').arena := by
  refine Arena.sameLinks_modify k fun d hd => ?_
  obtain rfl := Option.some.inj (hc.symm.trans hd)
  exact hlink

/-- A revision that leaves the link alone moves no context. -/
theorem position_revise (htidy : l.arena.Tidy) {j : Nat} {d d' : Context N A β}
    (hd : l.arena[j]? = some d) (hdlink : d'.link = d.link) :
    (l.revise id c' log').arena.position d' = l.arena.position d :=
  htidy.position_congr (sameLinks_revise hc hlink _) (by simp [revise]) hd hdlink

end Links

/-- Two accounts of one position change together, and those of all others stay. -/
theorem InStep.revise (h : l.InStep) (hc : l.arena[id]? = some c) (hlink : c'.link = c.link)
    (honce : c'.changed = true → c'.deleted = false)
    (hhere : ∀ edit : Edit, edit.inserts = false →
      (log'.map Zipper.mark).count (edit, l.arena.position c) = (c'.underwent edit).toNat)
    (helse : ∀ (edit : Edit) (position : List Location), edit.inserts = false →
      position ≠ l.arena.position c →
      (log'.map Zipper.mark).count (edit, position) =
        (l.log.map Zipper.mark).count (edit, position)) :
    (l.revise id c' log').InStep := by
  have hposition : ∀ {j : Nat} {d : Context N A β}, l.arena[j]? = some d →
      (l.revise id c' log').arena.position d = l.arena.position d :=
    fun hd => position_revise hc hlink h.tidy hd rfl
  have hown : (l.revise id c' log').arena.position c' = l.arena.position c :=
    position_revise hc hlink h.tidy hc hlink
  refine ⟨h.tidy.of_sameLinks (by simp [Ledger.revise]) (sameLinks_revise hc hlink _), rfl,
    fun hd => ?_, fun hd hedit => ?_, fun z hz hedit => ?_⟩
  · rcases revise_cases hd with ⟨-, rfl⟩ | ⟨-, hd⟩
    · exact honce
    · exact h.once hd
  · rcases revise_cases hd with ⟨-, rfl⟩ | ⟨hne, hd⟩
    · rw [log_revise, hown]
      exact hhere _ hedit
    · have hother : l.arena.position _ ≠ l.arena.position c :=
        fun heq => hne (h.tidy.position_inj hd hc heq)
      rw [log_revise, hposition hd, helse _ _ hedit hother]
      exact h.counted hd hedit
  · by_cases hz' : z.position = l.arena.position c
    · exact ⟨id, c', getElem?_revise hc, hz'.trans hown.symm⟩
    · -- an edit of another position has been in the log before, up to its node
      have hmark : z.mark ∈ l.log.map Zipper.mark := by
        rw [← List.count_pos_iff, Zipper.mark, ← helse _ _ hedit hz', List.count_pos_iff]
        exact List.mem_map_of_mem hz
      obtain ⟨y, hy, heq⟩ := List.mem_map.mp hmark
      obtain ⟨hkind, hpos⟩ := Prod.mk.inj heq
      obtain ⟨j, d, hd, hplace⟩ := h.placed y hy (hkind ▸ hedit)
      have hj : j ≠ id := by
        rintro rfl
        obtain rfl := Option.some.inj (hc.symm.trans hd)
        exact hz' (hpos.symm.trans hplace)
      refine ⟨j, d, ?_, hpos.symm.trans (hplace.trans (hposition hd).symm)⟩
      rw [Ledger.revise, Array.getElem?_modify, if_neg (Ne.symm hj)]
      exact hd

/-- The replacement of one context changes, and those of all others stay. -/
theorem Faithful.revise (h : l.Faithful) (htidy : l.arena.Tidy) (hc : l.arena[id]? = some c)
    (hlink : c'.link = c.link)
    (hhere : c'.changed = true →
      ∃ z ∈ log', z.mark = (.replace, l.arena.position c) ∧ z.node = c'.node)
    (helse : ∀ z ∈ l.log, z.mark ≠ (.replace, l.arena.position c) → z ∈ log') :
    (l.revise id c' log').Faithful := by
  intro j d hd hchanged
  rcases revise_cases hd with ⟨-, rfl⟩ | ⟨hne, hd⟩
  · rw [position_revise hc hlink htidy hc hlink]
    exact hhere hchanged
  · obtain ⟨z, hz, hmark, hnode⟩ := h j d hd hchanged
    rw [position_revise hc hlink htidy hd rfl]
    refine ⟨z, helse z hz fun heq => hne (htidy.position_inj hd hc ?_), hmark, hnode⟩
    exact (Prod.mk.inj (hmark.symm.trans heq)).2

/-! ### New contexts -/

section Discovery

variable {found : List (Context N A β)} (hid : id < l.arena.size)
  (hfound : ∀ c ∈ found, ∃ location, c.link = some ⟨id, location⟩)
  (hnodup : (found.map Context.link).Nodup)
  (hbare : ∀ {j : Nat} {c : Context N A β} {link : Link}, l.arena[j]? = some c →
    c.link = some link →
    link.parent ≠ id)

theorem position_discover (htidy : l.arena.Tidy) {j : Nat} {d : Context N A β}
    (hd : l.arena[j]? = some d) :
    Arena.position (l.arena ++ found.toArray) d = l.arena.position d := by
  refine htidy.position_congr (fun i hi => ?_) (by simp) hd rfl
  rw [Array.getElem?_append_left hi]

include hid hfound hnodup hbare

/-- The log knows nothing of contexts that are new. -/
theorem InStep.discover (h : l.InStep)
    (hfresh : ∀ c ∈ found, c.changed = false ∧ c.deleted = false) :
    InStep { l with arena := l.arena ++ found.toArray } := by
  have htidy : Arena.Tidy (l.arena ++ found.toArray) := h.tidy.append hid hfound hnodup hbare
  have hplaced : ∀ z ∈ l.log, z.edit.inserts = false → ∃ (i : Nat) (c : Context N A β),
      l.arena[i]? = some c ∧ z.position = Arena.position (l.arena ++ found.toArray) c := by
    intro z hz hedit
    obtain ⟨i, c, hc, hposition⟩ := h.placed z hz hedit
    exact ⟨i, c, hc, hposition.trans (position_discover h.tidy hc).symm⟩
  refine ⟨htidy, h.recording, fun {j d} hd hchanged => ?_, fun {j d edit} hd hedit => ?_,
    fun z hz hedit => ?_⟩
  · rcases Arena.append_cases hd with hold | ⟨-, hnew⟩
    · exact h.once hold hchanged
    · exact (hfresh d (List.mem_of_getElem? hnew)).2
  · rcases Arena.append_cases hd with hold | ⟨hj, hnew⟩
    · rw [position_discover h.tidy hold]
      exact h.counted hold hedit
    · have hunderwent : d.underwent edit = false := by
        cases edit <;> simp [Context.underwent, hfresh d (List.mem_of_getElem? hnew)]
      rw [hunderwent, Bool.toNat_false, List.count_eq_zero]
      -- an edit at the position of `d` would be one of an older context
      intro hmem
      obtain ⟨z, hz, hmark⟩ := List.mem_map.mp hmem
      obtain ⟨hkind, hposition⟩ := Prod.mk.inj hmark
      obtain ⟨i, c, hc, hplace⟩ := hplaced z hz (hkind ▸ hedit)
      have hi := Arena.lt_size_of_getElem? hc
      have heq := htidy.position_inj ((Array.getElem?_append_left hi).trans hc) hd
        (hplace.symm.trans hposition)
      omega
  · obtain ⟨i, c, hc, hplace⟩ := hplaced z hz hedit
    exact ⟨i, c, (Array.getElem?_append_left (Arena.lt_size_of_getElem? hc)).trans hc, hplace⟩

omit hid hfound hnodup hbare in
theorem Faithful.discover (h : l.Faithful) (htidy : l.arena.Tidy)
    (hfresh : ∀ c ∈ found, c.changed = false) :
    Faithful { l with arena := l.arena ++ found.toArray } := by
  intro j d hd hchanged
  rcases Arena.append_cases hd with hold | ⟨-, hnew⟩
  · rw [position_discover htidy hold]
    exact h j d hold hchanged
  · exact absurd ((hfresh d (List.mem_of_getElem? hnew)).symm.trans hchanged) Bool.false_ne_true

end Discovery

/-! ### Requests -/

/-- The **turn** that a request brings about, for the context it is made on: the answer, the new
context and the new log. -/
inductive Turn [Identified N] (l : Ledger N A β) (c : Context N A β) :
    Request N A β → Except Error Unit → Context N A β → List (Zipper N) → Prop where
  /-- The request is refused, or does not edit. A replacement is refused only after a deletion. -/
  | noted {q : Request N A β} {r : Except Error Unit} {c' : Context N A β}
      (idle : q.replaces = true → c.deleted = true) (link : c'.link = c.link)
        (node : c'.node = c.node) (changed : c'.changed = c.changed)
      (deleted : c'.deleted = c.deleted) : Turn l c q r c' l.log
  /-- The node is replaced for the first time. -/
  | replaced {z : Zipper N} (kept : c.deleted = false) (unchanged : c.changed = false)
      (mark : z.mark = (.replace, l.arena.position c)) :
      Turn l c (.replace z.node) (.ok ()) { c with node := z.node, changed := true } (l.log ++ [z])
  /-- The node is replaced again: the first edit that carries it is amended. -/
  | amended {node : N} {log' : List (Zipper N)} (kept : c.deleted = false)
    (changed : c.changed = true)
      (swap : Batch.swapFirst (identity ·.node = identity c.node) node l.log = some log') :
      Turn l c (.replace node) (.ok ()) { c with node, changed := true } log'
  /-- The node is replaced again, and no edit carries it. -/
  | lost {node : N} {e : Error} (kept : c.deleted = false) (changed : c.changed = true)
      (swap : Batch.swapFirst (identity ·.node = identity c.node) node l.log = none) :
      Turn l c (.replace node) (.error e) { c with node, changed := true } l.log
  /-- The node is removed. -/
  | removed {z : Zipper N} (kept : c.deleted = false) (unchanged : c.changed = false)
      (mark : z.mark = (.delete, l.arena.position c)) :
      Turn l c .remove (.ok ()) { c with deleted := true } (l.log ++ [z])
  /-- A node is put beside this one. -/
  | inserted {q : Request N A β} {z : Zipper N} (idle : q.replaces = false)
      (inserts : z.edit.inserts = true) :
      Turn l c q (.ok ()) c (l.log ++ [z])

end Ledger

namespace Spot

variable {spot : Spot N A β} {l : Ledger N A β} {c : Context N A β}

theorem context_eq (hc : l.arena[spot.id]? = some c) : spot.context l = c := by
  rw [context, Array.getD_eq_getD_getElem?, hc]
  rfl

/-- The edits of a context stay at its position. -/
theorem mark_zipper_revise (htidy : l.arena.Tidy) (hc : l.arena[spot.id]? = some c)
    (c' : Context N A β) (hlink : c'.link = c.link) (log' : List (Zipper N)) (node : N)
    (edit : Edit) :
    (spot.zipper (l.revise spot.id c' log') node edit).mark = (edit, l.arena.position c) := by
  refine congrArg (Prod.mk edit) ?_
  rw [Zipper.position, zipper, Arena.map_location_crumbs, context_eq (Ledger.getElem?_revise hc),
    Ledger.position_revise hc hlink htidy hc hlink]

theorem runWith_change (node : N) : (spot.change node).runWith l =
    if (spot.context l).deleted then (.error (.changeOfDeleted (spot.place l)), l)
    else (.ok (), l.modifyAt spot.id fun c => { c with node, changed := true }) := by
  show Attempt.runWith (if (spot.context l).deleted then _ else _) l = _
  split <;> rfl

theorem runWith_delete : spot.delete.runWith l =
    if (spot.context l).deleted then (.error (.deletedTwice (spot.place l)), l)
    else if (spot.context l).changed then (.error (.deleteOfChanged (spot.place l)), l)
    else (.ok (), l.modifyAt spot.id fun c => { c with deleted := true }) := by
  show Attempt.runWith (if (spot.context l).deleted then _ else _) l = _
  split
  · rfl
  · split <;> rfl

theorem runWith_amend [Identified N] (previous : Identity N) (node : N) {log : List (Zipper N)}
    (hrecording : l.edits = some log) : (spot.amend previous node).runWith l =
    match Batch.swapFirst (identity ·.node = previous) node log with
    | some log' => (.ok (), { l with edits := some log' })
    | none => (.error (.noZipperForNodeAt (spot.place l)), l) := by
  show Attempt.runWith (match l.edits.bind (Batch.swapFirst (identity ·.node = previous) node) with
    | some edits => _
    | none => _) l = _
  rw [hrecording, Option.bind_some]
  split <;> rfl

theorem runWith_ensureRecording (hrecording : l.edits = some l.log) :
    spot.ensureRecording.runWith l = (.ok (), l) := by
  show Attempt.runWith (if l.edits.isNone then _ else _) l = _
  rw [hrecording]
  rfl

section Turns

variable (hrecording : l.edits = some l.log) (hc : l.arena[spot.id]? = some c)

include hrecording hc

/-- A request that changes nothing. -/
theorem refused_turn [Identified N] {q : Request N A β} {x : Attempt (Ledger N A β) Unit}
    {r : Except Error Unit} (hx : x.runWith l = (r, l))
    (hidle : q.replaces = true → c.deleted = true) : ∃ r c' log',
    x.runWith l = (r, l.revise spot.id c' log') ∧ l.Turn c q r c' log' := by
  refine ⟨r, c, l.log, ?_, .noted hidle rfl rfl rfl rfl⟩
  rw [Ledger.revise_self hc hrecording, hx]

theorem replace_turn [Identified N] (htidy : l.arena.Tidy) (node : N) : ∃ r c' log',
    (spot.replace node).runWith l = (r, l.revise spot.id c' log') ∧
      l.Turn c (.replace node) r c' log' := by
  have hcontext := context_eq hc
  have hrun : (spot.replace node).runWith l = (do
      spot.change node
      if c.changed then
        spot.amend (identity c.node) node
      else
        modify fun l : Ledger N A β => l.record (spot.zipper l node .replace)).runWith l := by
    rw [replace, Attempt.runWith_bind_ok (runWith_ensureRecording hrecording), ← hcontext]
    rfl
  rw [hrun]
  have hchange : (spot.change node).runWith l = _ := runWith_change node
  rw [hcontext] at hchange
  by_cases hdeleted : c.deleted = true
  · rw [if_pos hdeleted] at hchange
    exact refused_turn hrecording hc (Attempt.runWith_bind_error hchange _) fun _ => hdeleted
  · rw [if_neg hdeleted, Ledger.modifyAt_eq hc hrecording] at hchange
    have hkept : c.deleted = false := by simpa using hdeleted
    -- the context goes on with the new node, whatever becomes of the log
    rw [Attempt.runWith_bind_ok hchange]
    by_cases hchanged : c.changed = true
    · rw [if_pos hchanged, runWith_amend _ _ rfl]
      cases hswap : Batch.swapFirst (identity ·.node = identity c.node) node l.log with
      | none => exact ⟨_, _, _, rfl, .lost hkept hchanged hswap⟩
      | some log' => exact ⟨_, _, _, rfl, .amended hkept hchanged hswap⟩
    · rw [if_neg hchanged]
      have hmark := mark_zipper_revise htidy hc { c with node, changed := true } rfl
        l.log node .replace
      exact ⟨_, _, _, rfl, .replaced hkept (by simpa using hchanged) hmark⟩

theorem remove_turn [Identified N] (htidy : l.arena.Tidy) : ∃ r c' log',
    spot.remove.runWith l = (r, l.revise spot.id c' log') ∧ l.Turn c .remove r c' log' := by
  have hcontext := context_eq hc
  have hrun : spot.remove.runWith l = (do
      spot.delete
      modify fun l : Ledger N A β => l.record (spot.zipper l (spot.context l).node
        .delete)).runWith l := by
    rw [remove, Attempt.runWith_bind_ok (runWith_ensureRecording hrecording)]
  rw [hrun]
  have hdelete : spot.delete.runWith l = _ := runWith_delete
  rw [hcontext] at hdelete
  by_cases hdeleted : c.deleted = true
  · rw [if_pos hdeleted] at hdelete
    exact refused_turn hrecording hc (Attempt.runWith_bind_error hdelete _) nofun
  · rw [if_neg hdeleted] at hdelete
    by_cases hchanged : c.changed = true
    · rw [if_pos hchanged] at hdelete
      exact refused_turn hrecording hc (Attempt.runWith_bind_error hdelete _) nofun
    · rw [if_neg hchanged, Ledger.modifyAt_eq hc hrecording] at hdelete
      rw [Attempt.runWith_bind_ok hdelete]
      refine ⟨_, _, _, rfl, .removed (by simpa using hdeleted) (by simpa using hchanged) ?_⟩
      exact mark_zipper_revise htidy hc { c with deleted := true } rfl _ _ .delete

theorem insertBeside_turn [Identified N] {q : Request N A β} (hidle : q.replaces = false) (node : N)
    {edit : Edit} (hedit : edit.inserts = true) : ∃ r c' log',
    (spot.insertBeside node edit).runWith l = (r, l.revise spot.id c' log') ∧
      l.Turn c q r c' log' := by
  have hrun : (spot.insertBeside node edit).runWith l =
      if (spot.context l).link.isNone then (.error (.besideRootAt (spot.place l)), l)
      else (.ok (), l.record (spot.zipper l node edit)) := by
    rw [insertBeside, Attempt.runWith_bind_ok (runWith_ensureRecording hrecording)]
    show Attempt.runWith (if (spot.context l).link.isNone then _ else _) l = _
    split <;> rfl
  by_cases hroot : (spot.context l).link.isNone = true
  · rw [if_pos hroot] at hrun
    exact refused_turn hrecording hc hrun fun h => absurd (hidle.symm.trans h) Bool.false_ne_true
  · rw [if_neg hroot] at hrun
    refine ⟨_, c, l.log ++ [spot.zipper l node edit], ?_, .inserted hidle hedit⟩
    rw [hrun, Ledger.record_eq hc hrecording]

/-- **What a request does**: it takes one of the turns. -/
theorem perform_turn [Identified N] [DecidableEq κ] (htidy : l.arena.Tidy) {q : Request N A β}
    (hq : q.IsRecorded) : ∃ r c' log',
    (spot.perform q).runWith l = (r, l.revise spot.id c' log') ∧ l.Turn c q r c' log' := by
  cases q with
  | setVar key value =>
    exact ⟨.ok (), _, _, congrArg (Prod.mk _) (Ledger.modifyAt_eq hc hrecording _),
      .noted nofun rfl rfl rfl rfl⟩
  | setAccumulate accumulate =>
    exact ⟨.ok (), _, _, congrArg (Prod.mk _) (Ledger.modifyAt_eq hc hrecording _),
      .noted nofun rfl rfl rfl rfl⟩
  | change node => exact hq.elim
  | delete => exact hq.elim
  | replace node => exact replace_turn hrecording hc htidy node
  | remove => exact remove_turn hrecording hc htidy
  | insertBefore node => exact insertBeside_turn hrecording hc rfl node rfl
  | insertAfter node => exact insertBeside_turn hrecording hc rfl node rfl

end Turns

end Spot

/-! ### What requests preserve -/

theorem Batch.map_mark_swapFirst {p : Zipper N → Bool} {node : N} {log log' : List (Zipper N)}
    (h : swapFirst p node log = some log') : log'.map Zipper.mark = log.map Zipper.mark := by
  induction log generalizing log' with
  | nil => simp [swapFirst] at h
  | cons z log ih =>
    rw [swapFirst] at h
    split at h
    · obtain rfl := Option.some.inj h
      rfl
    · obtain ⟨rest, hrest, rfl⟩ := Option.map_eq_some_iff.mp h
      rw [List.map_cons, List.map_cons, ih hrest]

/-- One more edit in the log. -/
theorem Zipper.count_mark_append (log : List (Zipper N)) (z : Zipper N) (m : Edit × List Location) :
    ((log ++ [z]).map mark).count m = (log.map mark).count m + if z.mark = m then 1 else 0 := by
  rw [List.map_append, List.count_append, List.map_singleton, List.count_singleton]
  by_cases hm : z.mark = m
  · rw [if_pos hm, if_pos (by simpa using hm)]
  · rw [if_neg hm, if_neg (by simpa using hm)]

namespace Ledger

variable {l : Ledger N A β} {id : Nat} {c c' : Context N A β} {log' : List (Zipper N)}

/-- A context underwent a new edit, and the log has it. -/
theorem InStep.snoc (h : l.InStep) (hc : l.arena[id]? = some c) (hlink : c'.link = c.link)
    {z : Zipper N} (hposition : z.edit.inserts = false → z.position = l.arena.position c)
    (honce : c'.changed = true → c'.deleted = false)
    (hunderwent : ∀ edit : Edit, edit.inserts = false →
      (c'.underwent edit).toNat = (c.underwent edit).toNat + if z.edit = edit then 1 else 0) :
    (l.revise id c' (l.log ++ [z])).InStep := by
  refine h.revise hc hlink honce (fun edit hedit => ?_) fun edit position hedit hne => ?_
  · rw [Zipper.count_mark_append, h.counted hc hedit, hunderwent edit hedit]
    congr 1
    by_cases hz : z.edit = edit
    · have hmark : z.mark = (edit, l.arena.position c) := by
        rw [Zipper.mark, hposition (hz ▸ hedit), hz]
      rw [if_pos hmark, if_pos hz]
    · have hmark : z.mark ≠ (edit, l.arena.position c) := fun heq => hz (Prod.mk.inj heq).1
      rw [if_neg hmark, if_neg hz]
  · rw [Zipper.count_mark_append, if_neg, Nat.add_zero]
    intro hmark
    obtain ⟨rfl, rfl⟩ := Prod.mk.inj hmark
    exact hne (hposition hedit)

variable [Identified N] {q : Request N A β} {r : Except Error Unit}

theorem Turn.link_eq (h : l.Turn c q r c' log') : c'.link = c.link := by
  cases h with
  | noted _ link _ _ _ => exact link
  | _ => rfl

theorem Turn.stays (h : l.Turn c q r c' log') {inside : N → Prop} (hq : q.StaysIn inside)
    (hc : inside c.node) : inside c'.node := by
  cases h with
  | noted _ _ node _ _ => exact node ▸ hc
  | replaced _ _ _ => exact hq
  | amended _ _ _ => exact hq
  | lost _ _ _ => exact hq
  | removed _ _ _ => exact hc
  | inserted _ _ => exact hc

/-- **Every request keeps the log in step**, whatever node it brings. -/
theorem InStep.turn (h : l.InStep) (hc : l.arena[id]? = some c) (hturn : l.Turn c q r c' log') :
    (l.revise id c' log').InStep := by
  -- what counts is which marks the log has, and so amending an edit is no different from a note
  cases hturn with
  | noted idle link node changed deleted =>
    refine h.revise hc link ?_ (fun edit hedit => ?_) fun _ _ _ _ => rfl
    · rw [changed, deleted]
      exact h.once hc
    · rw [h.counted hc hedit]
      cases edit <;> simp [Context.underwent, changed, deleted]
  | replaced kept unchanged mark =>
    refine h.snoc hc (by rfl) (fun _ => (Prod.mk.inj mark).2) (fun _ => kept) fun edit hedit => ?_
    rw [(Prod.mk.inj mark).1]
    cases edit <;> simp [Context.underwent, unchanged]
  | amended kept changed swap =>
    refine h.revise hc rfl (fun _ => kept) (fun edit hedit => ?_) fun edit position _ _ => ?_
    · rw [Batch.map_mark_swapFirst swap, h.counted hc hedit]
      cases edit <;> simp [Context.underwent, changed]
    · rw [Batch.map_mark_swapFirst swap]
  | lost kept changed swap =>
    refine h.revise hc rfl (fun _ => kept) (fun edit hedit => ?_) fun _ _ _ _ => rfl
    rw [h.counted hc hedit]
    cases edit <;> simp [Context.underwent, changed]
  | removed kept unchanged mark =>
    refine h.snoc hc (by rfl) (fun _ => (Prod.mk.inj mark).2) (fun hchanged => ?_)
      fun edit hedit => ?_
    · exact absurd (unchanged.symm.trans hchanged) Bool.false_ne_true
    · rw [(Prod.mk.inj mark).1]
      cases edit <;> simp [Context.underwent, kept]
  | inserted idle inserts =>
    refine h.snoc hc (by rfl) (fun hz => ?_) (h.once hc) fun edit hedit => ?_
    · exact absurd (hz.symm.trans inserts) Bool.false_ne_true
    · rw [if_neg, Nat.add_zero]
      rintro rfl
      exact absurd (hedit.symm.trans inserts) Bool.false_ne_true

/-- A second change of a context is **unmistaken** if no edit that was recorded before its own
replacement carries the node that it has. -/
def Unmistaken (l : Ledger N A β) (c : Context N A β) : Prop :=
  ∀ y ∈ l.log.takeWhile (·.mark ≠ (.replace, l.arena.position c)), identity y.node ≠ identity c.node

/-- An unmistaken change amends the replacement of its own context. -/
theorem Faithful.amends (hfaithful : l.Faithful) (h : l.InStep) (hc : l.arena[id]? = some c)
    (hchanged : c.changed = true) (hunmistaken : l.Unmistaken c) (node : N) :
    ∃ front z rest, l.log = front ++ z :: rest ∧ z.mark = (.replace, l.arena.position c) ∧
      Batch.swapFirst (identity ·.node = identity c.node) node l.log =
        some (front ++ z.withNode node :: rest) := by
  obtain ⟨z, hz, hmark, hnode⟩ := hfaithful id c hc hchanged
  obtain ⟨front, rest, hlog⟩ := List.append_of_mem hz
  refine ⟨front, z, rest, hlog, hmark, ?_⟩
  -- the context has one replacement, so none of those in front of it is its own
  have hcount : (l.log.map Zipper.mark).count (.replace, l.arena.position c) = c.changed.toNat :=
    h.counted hc rfl
  have hfront : ∀ y ∈ front, y.mark ≠ (.replace, l.arena.position c) := by
    intro y hy heq
    have hpos : 0 < (front.map Zipper.mark).count (.replace, l.arena.position c) :=
      List.count_pos_iff.mpr (List.mem_map.mpr ⟨y, hy, heq⟩)
    rw [hlog, List.map_append, List.count_append, List.map_cons, hmark, List.count_cons_self,
      hchanged] at hcount
    simp only [Bool.toNat_true] at hcount
    omega
  have hbefore : l.log.takeWhile (·.mark ≠ (.replace, l.arena.position c)) = front := by
    rw [hlog, List.takeWhile_append_of_pos fun y hy => by simpa using hfront y hy,
      List.takeWhile_cons_of_neg (by simpa using hmark), List.append_nil]
  rw [hlog, ← hnode]
  refine Batch.swapFirst_append (fun y hy => ?_) (by simp) node
  have hne := hunmistaken y (hbefore ▸ hy)
  rw [hnode]
  simpa using hne

/-- **Requests keep the log faithful**, as long as no second change is mistaken. -/
theorem Faithful.turn (hfaithful : l.Faithful) (h : l.InStep) (hc : l.arena[id]? = some c)
    (hturn : l.Turn c q r c' log')
    (hunmistaken : q.replaces = true → c.changed = true → l.Unmistaken c) :
    (l.revise id c' log').Faithful := by
  cases hturn with
  | noted idle link node changed deleted =>
    refine hfaithful.revise h.tidy hc link (fun hchanged => ?_) fun z hz _ => hz
    rw [node]
    exact hfaithful id c hc (changed ▸ hchanged)
  | replaced kept unchanged mark =>
    refine hfaithful.revise h.tidy hc (by rfl) (fun _ => ?_) fun z hz _ => List.mem_append_left _ hz
    exact ⟨_, List.mem_append_right _ List.mem_cons_self, mark, rfl⟩
  | @amended node _ kept changed swap =>
    obtain ⟨front, z, rest, hlog, hmark, hswap⟩ :=
      hfaithful.amends h hc changed (hunmistaken rfl changed) node
    obtain rfl := Option.some.inj (swap.symm.trans hswap)
    refine hfaithful.revise h.tidy hc (by rfl) (fun _ => ?_) fun y hy hne => ?_
    · exact ⟨z.withNode node, List.mem_append_right _ List.mem_cons_self, hmark, rfl⟩
    · -- only the replacement of this context is another one now
      rw [hlog] at hy
      rcases mem_swapped (z.withNode node) hy with rfl | hy
      · exact absurd hmark hne
      · exact hy
  | @lost node _ kept changed swap =>
    -- the edit is found, so this does not happen
    obtain ⟨_, _, _, -, -, hswap⟩ :=
      hfaithful.amends h hc changed (hunmistaken rfl changed) node
    exact absurd (swap.symm.trans hswap) (by simp)
  | removed kept unchanged mark =>
    refine hfaithful.revise h.tidy hc (by rfl) (fun hchanged => ?_) fun z hz _ =>
      List.mem_append_left _ hz
    exact absurd (unchanged.symm.trans hchanged) Bool.false_ne_true
  | inserted idle inserts =>
    refine hfaithful.revise h.tidy hc rfl (fun hchanged => ?_) fun z hz _ =>
      List.mem_append_left _ hz
    obtain ⟨z, hz, hmark, hnode⟩ := hfaithful id c hc hchanged
    exact ⟨z, List.mem_append_left _ hz, hmark, hnode⟩

end Ledger

end Arborist
