import Arborist.Proofs.Callbacks

/-!
# Refused requests

A request that is refused **changes nothing**: no context, and not the record of the edits. There is
one exception. A replacement of a node that was changed before goes on with the new node first, and
then looks for the edit that carries the old one. If there is none, the request goes **astray**
(`Ask.Astray`): it is refused, but the context has the new node all the same.

As long as all changes are recorded this can't happen. Of each node the record has at least as many
edits as there are contexts that were changed to it (`Ledger.Covers`), and every request preserves
that, except a change that is not recorded. `Request.ComesTo` says what a request can come to, and
`Reckoned` what holds along a run. So a request goes astray only in a transformation, and only after
a change that was not recorded (`refused_keeps`, `refused_keeps_astray`).
-/

namespace Arborist

variable {σ N A κ : Type} {β : κ → Type}

/-! ### Counting -/

/-- One context of an arena changes. -/
theorem Arena.countP_modify {arena : Arena N A β} {id : Nat} {c : Context N A β}
    (hc : arena[id]? = some c) (c' : Context N A β) (p : Context N A β → Bool) :
    (arena.modify id fun _ => c').toList.countP p + (p c).toNat =
      arena.toList.countP p + (p c').toNat := by
  obtain ⟨hid, hget⟩ := Array.getElem?_eq_some_iff.mp hc
  have hlt : id < arena.toList.length := by simpa using hid
  have hbefore : arena.toList = arena.toList.take id ++ c :: arena.toList.drop (id + 1) := by
    rw [← hget, ← Array.getElem_toList hid, List.cons_getElem_drop_succ, List.take_append_drop]
  have hafter : (arena.modify id fun _ => c').toList =
      arena.toList.take id ++ c' :: arena.toList.drop (id + 1) := by
    rw [Array.toList_modify, List.modify_eq_take_cons_drop hlt]
  rw [hafter]
  conv_rhs => rw [hbefore]
  simp only [List.countP_append, List.countP_cons]
  cases p c <;> cases p c' <;> simp <;> omega

namespace Batch

variable {p : Zipper N → Bool} {node : N} {log log' : List (Zipper N)}

theorem swapFirst_eq_none_iff : swapFirst p node log = none ↔ ∀ z ∈ log, p z = false := by
  induction log with
  | nil => exact ⟨fun _ => nofun, fun _ => rfl⟩
  | cons z log ih =>
    rw [swapFirst, List.forall_mem_cons]
    by_cases hz : p z = true
    · simp [hz]
    · simp [hz, ih]

/-- Which edit a swap concerns. -/
theorem exists_of_swapFirst (h : swapFirst p node log = some log') : ∃ front z rest,
    log = front ++ z :: rest ∧ p z = true ∧ log' = front ++ z.withNode node :: rest := by
  induction log generalizing log' with
  | nil => cases h
  | cons z log ih =>
    rw [swapFirst] at h
    by_cases hz : p z = true
    · rw [if_pos hz] at h
      exact ⟨[], z, log, rfl, hz, (Option.some.inj h).symm⟩
    · rw [if_neg hz] at h
      obtain ⟨rest', hrest, rfl⟩ := Option.map_eq_some_iff.mp h
      obtain ⟨front, y, rest, rfl, hy, rfl⟩ := ih hrest
      exact ⟨z :: front, y, rest, rfl, hy, rfl⟩

/-- A swap takes one edit from a node, and gives it to the other. -/
theorem countP_swapFirst [Identified N] {i : Identity N}
    (h : swapFirst (identity ·.node = i) node log = some log') (j : Identity N) :
    log'.countP (identity ·.node = j) + (decide (i = j)).toNat =
      log.countP (identity ·.node = j) + (decide (identity node = j)).toNat := by
  obtain ⟨front, z, rest, rfl, hz, rfl⟩ := exists_of_swapFirst h
  obtain rfl := of_decide_eq_true hz
  simp only [List.countP_append, List.countP_cons, Zipper.withNode]
  by_cases hz : identity z.node = j <;> by_cases hnode : identity node = j <;>
    simp [hz, hnode] <;> omega

end Batch

namespace Ledger

/-- The ledger with another context at a place, and other edits. -/
def put (l : Ledger N A β) (id : Nat) (c : Context N A β) (edits : Option (List (Zipper N))) :
    Ledger N A β where
  arena := l.arena.modify id fun _ => c
  edits := edits

variable {l : Ledger N A β} {id : Nat} {c : Context N A β}

theorem put_self (hc : l.arena[id]? = some c) : l.put id c l.edits = l := by
  rw [put, Arena.modify_self hc]

theorem modifyAt_eq_put (hc : l.arena[id]? = some c) (f : Context N A β → Context N A β) :
    l.modifyAt id f = l.put id (f c) l.edits := by
  rw [modifyAt, put, Arena.modify_eq hc]

theorem record_put (id : Nat) (c : Context N A β) {log : List (Zipper N)}
    (hedits : l.edits = some log) (z : Zipper N) :
    (l.put id c l.edits).record z = l.put id c (some (log ++ [z])) := by
  rw [record, put, hedits]
  rfl

end Ledger

/-! ### What a request comes to -/

/-- What a request **comes to**: the answer, the context after it and the edits after it. -/
inductive Request.ComesTo [Identified N] (l : Ledger N A β) (c : Context N A β) :
    Request N A β → Except Error Unit → Context N A β → Option (List (Zipper N)) → Prop where
  /-- The request is refused, and nothing happens. -/
  | refused {q : Request N A β} (e : Error)
      (idle : q.replaces = true → c.deleted = true ∨ l.edits = none) :
      ComesTo l c q (.error e) c l.edits
  /-- Something is noted that does not concern the node. -/
  | noted {q : Request N A β} {c' : Context N A β} (idle : q.replaces = false)
      (node : c'.node = c.node) (changed : c'.changed = c.changed) :
      ComesTo l c q (.ok ()) c' l.edits
  /-- The walk goes on with another node, and nothing is recorded. -/
  | changed (node : N) :
      ComesTo l c (.change node) (.ok ()) { c with node, changed := true } l.edits
  /-- An edit is recorded that leaves the node as it is. -/
  | recorded {q : Request N A β} {c' : Context N A β} {log : List (Zipper N)} (z : Zipper N)
      (idle : q.replaces = false) (recording : l.edits = some log) (node : c'.node = c.node)
      (changed : c'.changed = c.changed) : ComesTo l c q (.ok ()) c' (some (log ++ [z]))
  /-- The node is replaced for the first time. -/
  | replaced {log : List (Zipper N)} (z : Zipper N) (recording : l.edits = some log)
      (unchanged : c.changed = false) :
      ComesTo l c (.replace z.node) (.ok ()) { c with node := z.node, changed := true }
        (some (log ++ [z]))
  /-- The node is replaced again. -/
  | amended {node : N} {log log' : List (Zipper N)} (recording : l.edits = some log)
      (changed : c.changed = true)
      (swap : Batch.swapFirst (identity ·.node = identity c.node) node log = some log') :
      ComesTo l c (.replace node) (.ok ()) { c with node, changed := true } (some log')
  /-- The node is replaced again, and no edit carries it: the request is refused, and the context
  has the new node. -/
  | astray {node : N} {log : List (Zipper N)} (place : String) (recording : l.edits = some log)
      (kept : c.deleted = false) (changed : c.changed = true)
      (missing : ∀ z ∈ log, identity z.node ≠ identity c.node) :
      ComesTo l c (.replace node) (.error (.noZipperForNodeAt place))
        { c with node, changed := true } l.edits

namespace Spot

/-- An attempt on a context **carries out** a request: it does what the request can come to. -/
def CarriesOut [Identified N] (spot : Spot N A β) (l : Ledger N A β) (c : Context N A β)
    (q : Request N A β) (x : Attempt (Ledger N A β) Unit) : Prop :=
  ∃ r c' edits, x.runWith l = (r, l.put spot.id c' edits) ∧ q.ComesTo l c r c' edits

variable {spot : Spot N A β} {l : Ledger N A β} {c : Context N A β}

section CarriesOut

variable [Identified N] (hc : l.arena[spot.id]? = some c)

include hc

theorem carriesOut_of_refused {q : Request N A β} {x : Attempt (Ledger N A β) Unit} {e : Error}
    (hx : x.runWith l = (.error e, l))
    (idle : q.replaces = true → c.deleted = true ∨ l.edits = none) :
    spot.CarriesOut l c q x :=
  ⟨.error e, c, l.edits, by rw [hx, Ledger.put_self hc], .refused e idle⟩

/-- A request that needs a record is refused without one. -/
theorem carriesOut_of_recording {q : Request N A β} {rest : Unit → Attempt (Ledger N A β) Unit}
    (h : ∀ log, l.edits = some log → spot.CarriesOut l c q (rest ())) :
    spot.CarriesOut l c q (spot.ensureRecording >>= rest) := by
  cases hedits : l.edits with
  | none =>
    have hrefused : spot.ensureRecording.runWith l = _ := runWith_ensureRecording_none hedits
    exact carriesOut_of_refused hc (Attempt.runWith_bind_error hrefused _) fun _ => .inr hedits
  | some log =>
    have hrecording : l.edits = some l.log := by rw [Ledger.log, hedits, Option.getD_some]
    rw [CarriesOut, Attempt.runWith_bind_ok (runWith_ensureRecording hrecording)]
    exact h log hedits

theorem change_carriesOut (node : N) : spot.CarriesOut l c (.change node) (spot.change node) := by
  have hrun : (spot.change node).runWith l = _ := runWith_change node
  by_cases hdeleted : (spot.context l).deleted = true
  · rw [if_pos hdeleted] at hrun
    exact carriesOut_of_refused hc hrun nofun
  · rw [if_neg hdeleted, Ledger.modifyAt_eq_put hc] at hrun
    exact ⟨_, _, _, hrun, .changed node⟩

theorem delete_carriesOut : spot.CarriesOut l c .delete spot.delete := by
  have hrun : spot.delete.runWith l = _ := runWith_delete
  by_cases hdeleted : (spot.context l).deleted = true
  · rw [if_pos hdeleted] at hrun
    exact carriesOut_of_refused hc hrun nofun
  · rw [if_neg hdeleted] at hrun
    by_cases hchanged : (spot.context l).changed = true
    · rw [if_pos hchanged] at hrun
      exact carriesOut_of_refused hc hrun nofun
    · rw [if_neg hchanged, Ledger.modifyAt_eq_put hc] at hrun
      exact ⟨_, _, _, hrun, .noted rfl rfl rfl⟩

theorem replace_carriesOut (node : N) :
    spot.CarriesOut l c (.replace node) (spot.replace node) := by
  refine carriesOut_of_recording hc fun log hedits => ?_
  change spot.CarriesOut l c (.replace node) (do
      spot.change node
      if (spot.context l).changed then
        spot.amend (identity (spot.context l).node) node
      else
        modify fun l : Ledger N A β => l.record (spot.zipper l node .replace))
  have hchange : (spot.change node).runWith l = _ := runWith_change node
  rw [context_eq hc] at hchange ⊢
  by_cases hdeleted : c.deleted = true
  · rw [if_pos hdeleted] at hchange
    exact carriesOut_of_refused hc (Attempt.runWith_bind_error hchange _) fun _ => .inl hdeleted
  · rw [if_neg hdeleted, Ledger.modifyAt_eq_put hc] at hchange
    rw [CarriesOut, Attempt.runWith_bind_ok hchange]
    -- from here on the context has the new node, whatever becomes of the edits
    by_cases hchanged : c.changed = true
    · have hedits' : (l.put spot.id { c with node, changed := true } l.edits).edits = some log :=
        hedits
      rw [if_pos hchanged, runWith_amend _ _ hedits']
      cases hswap : Batch.swapFirst (identity ·.node = identity c.node) node log with
      | some log' => exact ⟨_, _, _, rfl, .amended hedits hchanged hswap⟩
      | none =>
        have hmissing := Batch.swapFirst_eq_none_iff.mp hswap
        exact ⟨_, _, _, rfl, .astray _ hedits (by simpa using hdeleted) hchanged
          fun z hz => by simpa using hmissing z hz⟩
    · rw [if_neg hchanged]
      exact ⟨.ok (), _, _, congrArg (Prod.mk _) (Ledger.record_put _ _ hedits _),
        .replaced (spot.zipper _ node .replace) hedits (by simpa using hchanged)⟩

theorem remove_carriesOut : spot.CarriesOut l c .remove spot.remove := by
  refine carriesOut_of_recording hc fun log hedits => ?_
  have hdelete : spot.delete.runWith l = _ := runWith_delete
  by_cases hdeleted : (spot.context l).deleted = true
  · rw [if_pos hdeleted] at hdelete
    exact carriesOut_of_refused hc (Attempt.runWith_bind_error hdelete _) nofun
  · rw [if_neg hdeleted] at hdelete
    by_cases hchanged : (spot.context l).changed = true
    · rw [if_pos hchanged] at hdelete
      exact carriesOut_of_refused hc (Attempt.runWith_bind_error hdelete _) nofun
    · rw [if_neg hchanged, Ledger.modifyAt_eq_put hc] at hdelete
      rw [CarriesOut, Attempt.runWith_bind_ok hdelete]
      exact ⟨.ok (), _, _, congrArg (Prod.mk _) (Ledger.record_put _ _ hedits _),
        .recorded _ rfl hedits rfl rfl⟩

theorem insertBeside_carriesOut {q : Request N A β} (hidle : q.replaces = false) (node : N)
    (edit : Edit) : spot.CarriesOut l c q (spot.insertBeside node edit) := by
  refine carriesOut_of_recording hc fun log hedits => ?_
  have hrun : Attempt.runWith (do
      let l ← get
      if (spot.context l).link.isNone then throw (.besideRootAt (spot.place l))
      else set (l.record (spot.zipper l node edit))) l =
      if (spot.context l).link.isNone then (.error (.besideRootAt (spot.place l)), l)
      else (.ok (), l.record (spot.zipper l node edit)) := by
    show Attempt.runWith (if (spot.context l).link.isNone then _ else _) l = _
    split <;> rfl
  by_cases hroot : (spot.context l).link.isNone = true
  · rw [if_pos hroot] at hrun
    exact carriesOut_of_refused hc hrun fun h => absurd (hidle.symm.trans h) Bool.false_ne_true
  · rw [if_neg hroot] at hrun
    have hrecord := Ledger.record_put spot.id c hedits (spot.zipper l node edit)
    rw [Ledger.put_self hc] at hrecord
    exact ⟨_, _, _, hrun.trans (congrArg _ hrecord), .recorded _ hidle hedits rfl rfl⟩

/-- **Every request is carried out.** -/
theorem perform_carriesOut [DecidableEq κ] (q : Request N A β) :
    spot.CarriesOut l c q (spot.perform q) := by
  cases q with
  | setVar key value =>
    exact ⟨.ok (), _, _, congrArg (Prod.mk _) (Ledger.modifyAt_eq_put hc _), .noted rfl rfl rfl⟩
  | setAccumulate accumulate =>
    exact ⟨.ok (), _, _, congrArg (Prod.mk _) (Ledger.modifyAt_eq_put hc _), .noted rfl rfl rfl⟩
  | change node => exact change_carriesOut hc node
  | delete => exact delete_carriesOut hc
  | replace node => exact replace_carriesOut hc node
  | remove => exact remove_carriesOut hc
  | insertBefore node => exact insertBeside_carriesOut hc rfl node .insertBefore
  | insertAfter node => exact insertBeside_carriesOut hc rfl node .insertAfter

end CarriesOut

end Spot

/-! ### Edits for all changes -/

namespace Ledger

variable [Identified N] {l : Ledger N A β} {id : Nat} {c c' : Context N A β}
  {edits : Option (List (Zipper N))}

/-- How many contexts were changed to a node of the given identity. -/
def changedTo (l : Ledger N A β) (i : Identity N) : Nat :=
  l.arena.toList.countP fun c => c.changed && (identity c.node = i)

/-- How many edits carry a node of the given identity. -/
def editsOf (l : Ledger N A β) (i : Identity N) : Nat :=
  l.log.countP (identity ·.node = i)

/-- The edits **cover** the changes: a node has at least as many edits as there are contexts that
were changed to it. -/
def Covers (l : Ledger N A β) : Prop :=
  ∀ i, l.changedTo i ≤ l.editsOf i

theorem editsOf_of_recording {log : List (Zipper N)} (h : l.edits = some log) (i : Identity N) :
    l.editsOf i = log.countP (identity ·.node = i) := by
  rw [editsOf, Ledger.log, h]
  rfl

/-- The changes of one context are counted anew. -/
theorem changedTo_put (hc : l.arena[id]? = some c) (c' : Context N A β)
    (edits : Option (List (Zipper N))) (i : Identity N) :
    (l.put id c' edits).changedTo i + (c.changed && (identity c.node = i)).toNat =
      l.changedTo i + (c'.changed && (identity c'.node = i)).toNat :=
  Arena.countP_modify hc c' _

/-- Nothing is changed, and no edit is lost. -/
theorem Covers.put (h : l.Covers) (hc : l.arena[id]? = some c) (hnode : c'.node = c.node)
    (hchanged : c'.changed = c.changed)
    (hedits : ∀ i, l.editsOf i ≤ (l.put id c' edits).editsOf i) : (l.put id c' edits).Covers := by
  intro i
  have hcount := changedTo_put hc c' edits i
  rw [hnode, hchanged, Nat.add_right_cancel_iff] at hcount
  rw [hcount]
  exact (h i).trans (hedits i)

/-- A context that was changed has an edit. -/
theorem Covers.exists_edit (h : l.Covers) (hc : l.arena[id]? = some c)
    (hchanged : c.changed = true) : ∃ z ∈ l.log, identity z.node = identity c.node := by
  have hone : 0 < l.changedTo (identity c.node) := by
    refine List.countP_pos_iff.mpr ⟨c, ?_, by simp [hchanged]⟩
    exact Array.mem_toList_iff.mpr (Array.mem_of_getElem? hc)
  obtain ⟨z, hz, hnode⟩ := List.countP_pos_iff.mp (hone.trans_le (h _))
  exact ⟨z, hz, by simpa using hnode⟩

/-- **Requests preserve that the edits cover the changes**, except for changes that are not
recorded. -/
theorem Covers.comesTo (h : l.Covers) (hc : l.arena[id]? = some c) {q : Request N A β}
    {r : Except Error Unit} (hq : ∀ node, q = .change node → r ≠ .ok ())
    (hcomes : q.ComesTo l c r c' edits) : (l.put id c' edits).Covers := by
  cases hcomes with
  | refused e idle => exact h.put hc rfl rfl fun _ => Nat.le_refl _
  | noted idle node changed => exact h.put hc node changed fun _ => Nat.le_refl _
  | changed node => exact absurd rfl (hq node rfl)
  | @recorded _ _ log z idle recording node changed =>
    refine h.put hc node changed fun i => ?_
    rw [editsOf, Ledger.log, recording]
    exact (List.sublist_append_left log [z]).countP_le
  | @replaced log z recording unchanged =>
    intro i
    have hcount :=
      changedTo_put hc { c with node := z.node, changed := true } (some (log ++ [z])) i
    have hle := h i
    rw [editsOf_of_recording recording] at hle
    rw [editsOf_of_recording rfl, List.countP_append, List.countP_singleton]
    simp only [unchanged, Bool.false_and, Bool.true_and, Bool.toNat_false] at hcount
    by_cases hi : identity z.node = i <;> simp [hi] at hcount ⊢ <;> omega
  | @amended node log log' recording changed swap =>
    intro i
    have hcount := changedTo_put hc { c with node, changed := true } (some log') i
    have hswap := Batch.countP_swapFirst swap i
    have hle := h i
    rw [editsOf_of_recording recording] at hle
    rw [editsOf_of_recording rfl]
    simp only [changed, Bool.true_and] at hcount
    omega
  | @astray node log place recording kept changed missing =>
    obtain ⟨z, hz, hnode⟩ := h.exists_edit hc changed
    rw [Ledger.log, recording] at hz
    exact absurd hnode (missing z hz)

end Ledger

/-! ### Requests in a run -/

namespace Ask

variable [Identified N]

/-- A request that is **refused**. -/
def Refused [DecidableEq κ] (a : Ask N A β) : Prop :=
  ∃ e, a.outcome.1 = .error e

instance [DecidableEq κ] (a : Ask N A β) : Decidable a.Refused :=
  match h : a.outcome.1 with
  | .error e => isTrue ⟨e, h⟩
  | .ok _ => isFalse fun ⟨_, he⟩ => nomatch h.symm.trans he

/-- A request that is **not recorded**: a change of the context alone, that is granted. -/
def Unrecorded [DecidableEq κ] (a : Ask N A β) : Prop :=
  ∃ node, a.request = .change node ∧ a.outcome.1 = .ok ()

/-- A request that goes **astray**: in a transformation, a node that was changed and not deleted is
to be replaced, and there is no edit that carries it. -/
def Astray (a : Ask N A β) : Prop :=
  a.request.replaces = true ∧ a.context.deleted = false ∧ a.context.changed = true ∧
    a.ledger.edits.isSome = true ∧ ∀ z ∈ a.ledger.log, identity z.node ≠ identity a.context.node

instance (a : Ask N A β) : Decidable a.Astray :=
  inferInstanceAs (Decidable (_ ∧ _ ∧ _ ∧ _ ∧ ∀ z ∈ _, _))

/-- A request that is refused changes nothing, unless it goes astray. -/
theorem outcome_of_refused [DecidableEq κ] {a : Ask N A β} {c : Context N A β}
    (hc : a.ledger.arena[a.spot.id]? = some c) (h : a.Refused) (hastray : ¬ a.Astray) :
    a.outcome.2 = a.ledger := by
  obtain ⟨spot, l, q⟩ := a
  obtain ⟨r, c', edits, hrun, hcomes⟩ := Spot.perform_carriesOut hc q
  have hcontext : spot.context l = c := Spot.context_eq hc
  have houtcome : outcome ⟨spot, l, q⟩ = (r, l.put spot.id c' edits) := hrun
  rw [Refused, houtcome] at h
  obtain ⟨e, rfl⟩ := h
  rw [houtcome]
  cases hcomes with
  | refused => exact Ledger.put_self hc
  | astray place recording kept changed missing =>
    subst hcontext
    refine absurd ⟨rfl, kept, changed, ?_, ?_⟩ hastray
    · exact Option.isSome_of_eq_some recording
    · rw [Ledger.log, recording]
      exact missing

/-- What a request that goes astray does: it is refused, and its context has the new node. -/
theorem outcome_of_astray [DecidableEq κ] {a : Ask N A β} {c : Context N A β}
    (hc : a.ledger.arena[a.spot.id]? = some c) (hastray : a.Astray) :
    ∃ node place, a.request = .replace node ∧
      a.outcome = (.error (.noZipperForNodeAt place),
        a.ledger.modifyAt a.spot.id fun c => { c with node }) := by
  obtain ⟨spot, l, q⟩ := a
  obtain ⟨r, c', edits, hrun, hcomes⟩ := Spot.perform_carriesOut hc q
  have hcontext : spot.context l = c := Spot.context_eq hc
  obtain ⟨hreplaces, hkept, hchanged, hrecording, hmissing⟩ := hastray
  change q.replaces = true at hreplaces
  change l.edits.isSome = true at hrecording
  change ∀ z ∈ l.log, identity z.node ≠ identity (spot.context l).node at hmissing
  rw [context, hcontext] at hkept hchanged
  rw [hcontext] at hmissing
  cases hcomes with
  | refused e idle =>
    rcases idle hreplaces with hdeleted | hnone
    · exact absurd (hkept.symm.trans hdeleted) Bool.false_ne_true
    · rw [hnone] at hrecording
      cases hrecording
  | noted idle => exact absurd (idle.symm.trans hreplaces) Bool.false_ne_true
  | changed node => cases hreplaces
  | recorded z idle => exact absurd (idle.symm.trans hreplaces) Bool.false_ne_true
  | replaced z recording unchanged =>
    exact absurd (unchanged.symm.trans hchanged) Bool.false_ne_true
  | amended recording changed swap =>
    obtain ⟨front, z, rest, rfl, hz, -⟩ := Batch.exists_of_swapFirst swap
    have hlog : l.log = front ++ z :: rest := congrArg (·.getD []) recording
    exact absurd (of_decide_eq_true hz) (hmissing z (by simp [hlog]))
  | @astray node _ place =>
    refine ⟨node, place, rfl, ?_⟩
    have hput := Ledger.modifyAt_eq_put hc fun c => { c with node }
    rw [outcome, hrun, hput]
    simp only [hchanged]

end Ask

/-! ### Runs -/

section Stepwise

variable {α : Type} {P : List α → α → Prop} {past as bs : List α}

/-- Every entry of a list is as it should be, with regard to the entries **before** it. -/
def Stepwise (P : List α → α → Prop) : List α → List α → Prop
  | _, [] => True
  | past, a :: as => P past a ∧ Stepwise P (past ++ [a]) as

theorem Stepwise.append (has : Stepwise P past as) (hbs : Stepwise P (past ++ as) bs) :
    Stepwise P past (as ++ bs) := by
  induction as generalizing past with
  | nil => rwa [List.append_nil] at hbs
  | cons a as ih => exact ⟨has.1, ih has.2 (by rwa [← List.append_cons])⟩

theorem Stepwise.at {before after : List α} {a : α}
    (h : Stepwise P past (before ++ a :: after)) : P (past ++ before) a := by
  induction before generalizing past with
  | nil =>
    rw [List.append_nil]
    exact h.1
  | cons b before ih =>
    rw [List.append_cons]
    exact ih h.2

end Stepwise

variable [Identified N] [DecidableEq κ]

/-- What holds of a ledger after some requests: whether edits are recorded is settled, and the edits
cover the changes if all of these were recorded. -/
structure Reckoned (recording : Bool) (past : List (Ask N A β)) (l : Ledger N A β) : Prop where
  recording : l.edits.isSome = recording
  covers : (∀ a ∈ past, ¬ a.Unrecorded) → l.Covers

namespace Reckoned

variable {recording : Bool} {past : List (Ask N A β)} {l : Ledger N A β} {c : Context N A β}

/-- **A request** is one more in the past. -/
theorem ask (h : Reckoned recording past l) (spot : Spot N A β)
    (hc : l.arena[spot.id]? = some c) (q : Request N A β) :
    Reckoned recording (past ++ [⟨spot, l, q⟩]) ((spot.perform q).runWith l).2 := by
  obtain ⟨r, c', edits, hrun, hcomes⟩ := Spot.perform_carriesOut hc q
  rw [hrun]
  refine ⟨?_, fun hrecorded => ?_⟩
  · show edits.isSome = recording
    rw [← h.recording]
    cases hcomes with
    | recorded _ _ hedits | replaced _ hedits | amended hedits => rw [hedits]; rfl
    | _ => rfl
  · obtain ⟨hpast, hnew⟩ := List.forall_mem_append.mp hrecorded
    refine (h.covers hpast).comesTo hc (fun node hnode hr => ?_) hcomes
    refine hnew _ List.mem_cons_self ⟨node, hnode, ?_⟩
    rw [Ask.outcome, hrun, hr]

/-- A context says something else about what is not a change. -/
theorem note (h : Reckoned recording past l) {id : Nat} (hc : l.arena[id]? = some c)
    (f : Context N A β → Context N A β) (hnode : (f c).node = c.node)
    (hchanged : (f c).changed = c.changed) : Reckoned recording past (l.modifyAt id f) := by
  refine ⟨h.recording, fun hpast => ?_⟩
  rw [Ledger.modifyAt_eq_put hc]
  exact (h.covers hpast).put hc hnode hchanged fun _ => Nat.le_refl _

/-- New contexts are not changed. -/
theorem discover (h : Reckoned recording past l) {found : List (Context N A β)}
    (hfound : ∀ d ∈ found, d.changed = false) :
    Reckoned recording past { l with arena := l.arena ++ found.toArray } := by
  refine ⟨h.recording, fun hpast i => ?_⟩
  have hnone : found.countP (fun c => c.changed && (identity c.node = i)) = 0 := by
    rw [List.countP_eq_zero]
    intro d hd
    simp [hfound d hd]
  have hcount : Ledger.changedTo { l with arena := l.arena ++ found.toArray } i =
      l.changedTo i := by
    rw [Ledger.changedTo, Array.toList_append, List.countP_append, hnone]
    rfl
  rw [hcount]
  exact h.covers hpast i

end Reckoned

/-- The request was made on a known context, and the ledger was reckoned then. -/
def Ask.Reckons (recording : Bool) (past : List (Ask N A β)) (a : Ask N A β) : Prop :=
  Reckoned recording past a.ledger ∧ ∃ c, a.ledger.arena[a.spot.id]? = some c

/-- **The requests of a program.** -/
theorem Reckoned.program {V α : Type} {recording : Bool} {past : List (Ask N A β)}
    {l : Ledger N A β} (h : Reckoned recording past l) (spot : Spot N A β)
    (hspot : ∃ c, l.arena[spot.id]? = some c) (view : Ledger N A β → V)
    (p : Program V (Request N A β) α) :
    Stepwise (Ask.Reckons recording) past
        ((p.asked view spot.perform l).map fun x => ⟨spot, x.1, x.2⟩) ∧
      Reckoned recording (past ++ (p.asked view spot.perform l).map fun x => ⟨spot, x.1, x.2⟩)
        (p.run view spot.perform l).2 := by
  induction p generalizing past l with
  | done a =>
    refine ⟨trivial, ?_⟩
    rw [Program.asked, List.map_nil, List.append_nil]
    exact h
  | look next ih => exact ih (view l) h hspot
  | ask q next ih =>
    obtain ⟨c, hc⟩ := hspot
    have hspot' : ∃ c', ((spot.perform q).runWith l).2.arena[spot.id]? = some c' := by
      obtain ⟨c', harena, -⟩ := Spot.perform_alters hc q
      exact ⟨c', by rw [harena, Array.getElem?_modify_of_some hc]⟩
    obtain ⟨hstepwise, hend⟩ := ih ((spot.perform q).runWith l).1 (h.ask spot hc q) hspot'
    refine ⟨⟨⟨h, c, hc⟩, hstepwise⟩, ?_⟩
    rw [List.append_assoc] at hend
    exact hend

namespace Traversal

variable {plan : Plan N A β} {visitor : SequentialVisitor σ N A β} {entry : Entry}
  {s : State N A β} {recording : Bool} {past : List (Ask N A β)}

/-- **The requests of a callback.** -/
theorem State.call_reckoned (h : Reckoned recording past s.ledger) (rootVars : Vars β) (id : Nat)
    (phase : Phase) (callback : Callback σ (Cursor N A β) (Request N A β) Control) (own : σ) :
    Stepwise (Ask.Reckons recording) past (s.asked rootVars id phase callback own) ∧
      ∀ control s' own', (s.call rootVars id phase callback).runWith own =
        (.ok (control, s'), own') →
          Reckoned recording (past ++ s.asked rootVars id phase callback own) s'.ledger := by
  cases hc : s.ledger.arena[id]? with
  | none =>
    rw [State.asked, hc]
    refine ⟨trivial, fun control s' own' hcall => ?_⟩
    rw [State.call, hc] at hcall
    cases hcall
    rwa [List.append_nil]
  | some c =>
    have hstart : Reckoned recording past (s.ledger.modifyAt id fun _ => s.readied phase c) :=
      h.note hc (fun _ => s.readied phase c) rfl rfl
    let spot : Spot N A β := ⟨id, s.readied phase c⟩
    have hspot : ∃ d, (s.ledger.modifyAt id fun _ => s.readied phase c).arena[id]? = some d :=
      ⟨_, Array.getElem?_modify_of_some hc _⟩
    obtain ⟨hstepwise, hend⟩ :=
      hstart.program spot hspot (spot.cursor rootVars s.visited) (callback own)
    rw [State.asked, hc]
    refine ⟨hstepwise, fun control s' own' hcall => ?_⟩
    rw [State.eq_of_call_ok hc hcall]
    exact hend

theorem State.expand_reckoned (h : Reckoned recording past s.ledger) (plan : Plan N A β)
    (id : Nat) : Reckoned recording past (s.expand plan id).ledger := by
  cases hc : s.ledger.arena[id]? with
  | none => rwa [State.expand_of_none hc]
  | some c =>
    have hfound : ∀ d ∈ plan.found c id s.accumulate, d.changed = false := by
      intro d hd
      obtain ⟨p, -, rfl⟩ := Plan.exists_of_mem_found hd
      rfl
    have hid := Arena.lt_size_of_getElem? hc
    rw [State.expand_eq hc]
    exact (h.discover hfound).note ((Array.getElem?_append_left hid).trans hc)
      (fun d => { d with children := some ((plan.below c).number s.ledger.arena.size) }) rfl rfl

/-- **The requests of a step.** -/
theorem step_reckoned (h : Reckoned recording past s.ledger) (plan : Plan N A β)
    (visitor : SequentialVisitor σ N A β) (entry : Entry) (own : σ) :
    Stepwise (Ask.Reckons recording) past (stepAsked plan visitor entry s own) ∧
      ∀ s' own', (step plan visitor entry s).runWith own = (.ok s', own') →
        Reckoned recording (past ++ stepAsked plan visitor entry s own) s'.ledger := by
  obtain ⟨hstepwise, hcalled⟩ := State.call_reckoned h plan.rootVars entry.id (s.phaseOf entry)
    (visitor.on (s.phaseOf entry)) own
  refine ⟨hstepwise, fun s' own' hstep => ?_⟩
  obtain ⟨control, s₁, hcall, hrest⟩ := step_cases hstep
  have hend := hcalled control s₁ own' hcall
  rcases hrest with ⟨hledger, -⟩ | ⟨visited, -, rfl⟩
  · rw [hledger]
    exact hend
  · exact State.expand_reckoned (s := { s₁ with visited }) hend plan entry.id

/-- The requests of at most `limit` steps. -/
def requests (plan : Plan N A β) (visitor : SequentialVisitor σ N A β) :
    Nat → State N A β → σ → List (Ask N A β)
  | 0, _, _ => []
  | limit + 1, s, own =>
    match s.pending with
    | [] => []
    | entry :: pending =>
      stepAsked plan visitor entry { s with pending } own ++
        match (step plan visitor entry { s with pending }).runWith own with
        | (.ok s', own') => requests plan visitor limit s' own'
        | (.error _, _) => []

/-- All **requests** of a walk, in order, with those of a callback that fails in the end. -/
def requested (plan : Plan N A β) (visitor : SequentialVisitor σ N A β) (recording : Bool)
    (limit : Nat) (roots : List N) (own : σ) : List (Ask N A β) :=
  requests plan visitor limit (start plan recording roots) own

/-- **The requests of a run.** -/
theorem requests_reckoned (plan : Plan N A β) (visitor : SequentialVisitor σ N A β) (limit : Nat)
    (own : σ) (h : Reckoned recording past s.ledger) :
    Stepwise (Ask.Reckons recording) past (requests plan visitor limit s own) := by
  induction limit generalizing past s own with
  | zero => exact trivial
  | succ limit ih =>
    rw [requests]
    cases hpending : s.pending with
    | nil => exact trivial
    | cons entry pending =>
      obtain ⟨hstepwise, hnext⟩ :=
        step_reckoned (s := { s with pending }) h plan visitor entry own
      refine hstepwise.append ?_
      cases hstep : (step plan visitor entry { s with pending }).runWith own with
      | mk out own' =>
        cases out with
        | error e => exact trivial
        | ok s' => exact ih own' (hnext s' own' hstep)

omit [DecidableEq κ] in
theorem start_edits (plan : Plan N A β) (recording : Bool) (roots : List N) :
    (start plan recording roots).ledger.edits.isSome = recording := by
  cases recording <;> rfl

/-- No context is changed at the start. -/
theorem start_reckoned (plan : Plan N A β) (recording : Bool) (roots : List N) :
    Reckoned recording [] (start plan recording roots).ledger := by
  refine ⟨start_edits plan recording roots, fun _ i => ?_⟩
  have hnone : (start plan recording roots).ledger.changedTo i = 0 := by
    rw [Ledger.changedTo, List.countP_eq_zero]
    intro c hc
    obtain ⟨root, -, rfl⟩ : ∃ root ∈ roots, Context.discover root none none plan.initial = c := by
      simpa [start] using hc
    simp [Context.discover]
  rw [hnone]
  exact Nat.zero_le _

/-- **A refused request changes nothing**, whatever was requested before it: neither a context nor
the edits. The only requests of which that does not hold are those that go astray. Such a request is
refused after its context was given the new node; it is made in a transformation, and only after a
change that was not recorded. -/
theorem refused_keeps (plan : Plan N A β) (visitor : SequentialVisitor σ N A β) (recording : Bool)
    (limit : Nat) (roots : List N) (own : σ) {k : Nat} {a : Ask N A β}
    (h : (requested plan visitor recording limit roots own)[k]? = some a) :
    (a.Refused → ¬ a.Astray → a.outcome.2 = a.ledger) ∧
      (a.Astray → recording = true ∧
        (∃ b ∈ (requested plan visitor recording limit roots own).take k, b.Unrecorded) ∧
        ∃ node place, a.request = .replace node ∧
          a.outcome = (.error (.noZipperForNodeAt place),
            a.ledger.modifyAt a.spot.id fun c => { c with node })) := by
  have hall := requests_reckoned plan visitor limit own (start_reckoned plan recording roots)
  rw [← requested] at hall
  generalize requested plan visitor recording limit roots own = run at h hall ⊢
  obtain ⟨hk, rfl⟩ := List.getElem?_eq_some_iff.mp h
  have hsplit : run = run.take k ++ run[k] :: run.drop (k + 1) := by
    rw [List.cons_getElem_drop_succ, List.take_append_drop]
  rw [hsplit] at hall
  obtain ⟨hreckoned, c, hc⟩ := hall.at
  refine ⟨Ask.outcome_of_refused hc, fun hastray => ⟨?_, ?_, ?_⟩⟩
  · obtain ⟨-, -, -, hrecording, -⟩ := hastray
    exact hreckoned.recording.symm.trans hrecording
  · obtain ⟨-, -, hchanged, -, hmissing⟩ := hastray
    by_contra hnone
    have hcovers := hreckoned.covers fun b hb hunrecorded => hnone ⟨b, hb, hunrecorded⟩
    rw [Ask.context, Spot.context_eq hc] at hchanged hmissing
    obtain ⟨z, hz, hnode⟩ := hcovers.exists_edit hc hchanged
    exact hmissing z hz hnode
  · exact Ask.outcome_of_astray hc hastray

open Arborist.Graph

/-- Something is asked of the root and of a replaced node that is refused. Another node is changed
without being recorded, and then replaced. -/
def strayEnter : String → Deed
  | "root" => { requests := [.insertBefore (.listed "n")] }
  | "a" => { requests := [.replace (.listed "n"), .remove, .delete] }
  | "b" => { requests := [.change (.listed "m"), .replace (.listed "k")] }
  | _ => {}

/-- The requests of the walk. -/
def strayRun : List (Ask Node Unit fun _ : Unit => Nat) :=
  requested (editPlan (pairTable.adapter : Adapter Nat Node) .empty) (onEntering strayEnter) true 6
    [.listed "root"] 0

/-- The removal is refused and changes nothing, and the last replacement goes astray. -/
theorem refused_keeps_stray :
    (∃ a, strayRun[2]? = some a ∧ a.Refused ∧ ¬ a.Astray ∧ a.outcome.2 = a.ledger) ∧
    ∃ a, strayRun[5]? = some a ∧ a.Astray ∧ ∃ b ∈ strayRun.take 5, b.Unrecorded := by
  have hkeeps : (strayRun[2]?).any (fun a => decide (a.Refused ∧ ¬ a.Astray)) = true := by
    decide +kernel
  have hastray : (strayRun[5]?).any (fun a => decide a.Astray) = true := by decide +kernel
  obtain ⟨a, ha, hchecked⟩ := (Option.any_eq_true _ _).mp hkeeps
  obtain ⟨b, hb, hchecked'⟩ := (Option.any_eq_true _ _).mp hastray
  obtain ⟨hrefused, hnot⟩ := of_decide_eq_true hchecked
  have hastray := of_decide_eq_true hchecked'
  exact ⟨⟨a, ha, hrefused, hnot, (refused_keeps _ _ _ _ _ _ ha).1 hrefused hnot⟩,
    b, hb, hastray, ((refused_keeps _ _ _ _ _ _ hb).2 hastray).2.1⟩

/-- **A refused request may change the context**: the last replacement is refused, and the walk goes
on with the node that it brings. -/
theorem refused_keeps_astray : ∃ a ∈ strayRun, a.Refused ∧
    (a.spot.context a.outcome.2).node ≠ a.context.node := by
  have hrun : strayRun.any (fun a => decide (a.Refused ∧
      identity (a.spot.context a.outcome.2).node ≠ identity a.context.node)) = true := by
    decide +kernel
  obtain ⟨a, ha, hchecked⟩ := List.any_eq_true.mp hrun
  obtain ⟨hrefused, hnode⟩ := of_decide_eq_true hchecked
  exact ⟨a, ha, hrefused, fun heq => hnode (congrArg identity heq)⟩

end Traversal

end Arborist
