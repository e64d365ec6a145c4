import Arborist.Proofs.InStep
import Arborist.Proofs.Reordering
import Arborist.Proofs.SiblingEdits

/-!
# The deletion of the root

A transformation whose root ends up deleted has recorded that deletion, once. What comes out depends
on what else was recorded (`transform_deleted`):

* **Nothing else**: the batch consists of the deletion, and there is no tree any more. It is so
  whenever the root is deleted on entering it: its children are never discovered, and nothing can be
  put beside a root (`Alone`).
* **Edits below the root**, made before it was deleted on leaving it. They are carried upwards until
  they have become a replacement of the root, and a replacement and a deletion are one edit of the
  root too many. Everywhere else a replacement gives way to a deletion of the same position.

With an adapter that never fails, reconciliation fails by a broken contract and not otherwise
(`Batch.contractual_toRoot`).
-/

namespace Arborist

variable {σ N : Type}

/-! ### Failures of reconciliation -/

/-- A computation is **contractual** if it only fails when a contract was broken. -/
def Attempt.Contractual {α : Type} (x : Attempt σ α) : Prop :=
  ∀ s e s', x.runWith s = (.error e, s') → e.kind = .invariant

namespace Attempt

variable {α γ : Type}

theorem Contractual.pure (a : α) : (Pure.pure a : Attempt σ α).Contractual := by
  intro s e s' h
  cases h

theorem Contractual.throw {e : Error} (h : e.kind = .invariant) :
    (MonadExcept.throw e : Attempt σ α).Contractual := by
  intro s e' s' hrun
  cases hrun
  exact h

theorem Contractual.ofExcept {r : Except Error α} (h : ∀ e, r = .error e → e.kind = .invariant) :
    (Attempt.ofExcept r : Attempt σ α).Contractual := by
  cases r with
  | ok a => exact .pure a
  | error e => exact .throw (h e rfl)

/-- A sequence is contractual if the rest is, after every success of the first part. -/
theorem Contractual.bind {x : Attempt σ α} {f : α → Attempt σ γ} (hx : x.Contractual)
    (hf : ∀ a s t, x.runWith s = (.ok a, t) → (f a).Contractual) : (x >>= f).Contractual := by
  intro s e s' h
  rcases cases_of_bind_error h with hfail | ⟨a, t, hrun, hrest⟩
  · exact hx s _ _ hfail
  · exact hf a s t hrun t e s' hrest

/-- What succeeds in a computation that depends on an outcome is that outcome. -/
theorem eq_of_ofExcept_ok {r : Except Error α} {a : α} {s t : σ}
    (h : (Attempt.ofExcept r : Attempt σ α).runWith s = (.ok a, t)) : r = .ok a := by
  cases r with
  | ok b =>
    cases h
    rfl
  | error e => cases h

end Attempt

/-- Splicing keeps the roles. -/
theorem Children.roles_splice {c c' : Children N} {l : Location} {shift : Int} {edit : Edit}
    {node : N} (h : c.splice l shift edit node = .ok c') : c'.roles = c.roles := by
  obtain ⟨list, hlist, -, -, rfl⟩ := Batch.exists_of_splice h
  exact roles_insert_of_get? hlist _

theorem Batch.roles_spliceAll {c c' : Children N} {shift : Role → Int} {zs : List (Zipper N)}
    (h : spliceAll c shift zs = .ok c') : c'.roles = c.roles := by
  induction zs generalizing c shift with
  | nil =>
    cases h
    rfl
  | cons z zs ih =>
    rw [spliceAll] at h
    split at h
    · cases h
    · rename_i l _
      cases hsplice : c.splice l (shift l.role) z.edit z.node with
      | error e =>
        rw [hsplice] at h
        cases h
      | ok d =>
        rw [hsplice] at h
        exact (ih h).trans (Children.roles_splice hsplice)

section NeverFails

variable {adapter : Adapter σ N} (hadapter : ∀ node, adapter.NeverFailsAt node)

include hadapter

theorem Adapter.contractual_rebuild {node : N} {c : Children N}
    (hc : c.roles = (adapter.children node).roles) : (adapter.rebuild node c).Contractual := by
  intro s e s' h
  obtain ⟨new, t, hnew⟩ := hadapter node c s hc
  cases hnew.symm.trans h

theorem Crumb.contractual_graft (crumb : Crumb N) (edit : Edit) (node : N) :
    (crumb.graft adapter edit node).Contractual := by
  refine .bind (.ofExcept fun e => Batch.kind_of_splice_error) fun c s t hc => ?_
  exact Adapter.contractual_rebuild hadapter
    (Children.roles_splice (Attempt.eq_of_ofExcept_ok hc))

theorem Crumb.contractual_climb (node : N) (crumbs : List (Crumb N)) :
    (Crumb.climb adapter node crumbs).Contractual := by
  induction crumbs generalizing node with
  | nil => exact .pure node
  | cons crumb rest ih =>
    exact .bind (contractual_graft hadapter crumb .replace node) fun parent _ _ _ => ih parent

theorem Zipper.contractual_toRoot (z : Zipper N) : (z.toRoot adapter).Contractual := by
  rw [Zipper.toRoot]
  split
  · split
    · exact .pure _
    · exact .pure _
    · exact .throw rfl
    · exact .throw rfl
  · refine .bind (Crumb.contractual_graft hadapter _ _ _) fun parent _ _ _ => ?_
    exact .bind (Crumb.contractual_climb hadapter parent _) fun root _ _ _ => .pure _

namespace Batch

theorem contractual_moveUpGroup (group : List (Zipper N)) :
    (moveUpGroup adapter group).Contractual := by
  rw [moveUpGroup]
  split
  · exact .throw rfl
  · split
    · exact .throw rfl
    · refine .bind (.ofExcept fun e => kind_of_spliceAll_error) fun c s t hc => ?_
      refine .bind (Adapter.contractual_rebuild hadapter ?_) fun parent _ _ _ => .pure _
      exact roles_spliceAll (Attempt.eq_of_ofExcept_ok hc)

variable [Identified N]

theorem contractual_settle (groups : List (Identity N × List (Zipper N)))
    (rest : List (Zipper N)) : (settle adapter groups rest).Contractual := by
  induction groups generalizing rest with
  | nil => exact .pure _
  | cons g groups ih =>
    rw [settle_cons]
    split
    · exact ih rest
    · exact .bind (contractual_moveUpGroup hadapter g.2) fun _ _ _ _ =>
        .bind (ih _) fun _ _ _ _ => .pure _

theorem contractual_round (depth : Nat) (zs : List (Zipper N)) :
    (round adapter depth zs).Contractual :=
  .bind (contractual_settle hadapter _ _) fun _ _ _ _ => .pure _

theorem contractual_reconcile (depth : Nat) (zs : List (Zipper N)) :
    (reconcile adapter depth zs).Contractual := by
  induction depth generalizing zs with
  | zero =>
    rw [reconcile]
    split
    · exact .pure _
    · exact .throw rfl
  | succ depth ih =>
    rw [reconcile]
    split
    · exact .pure _
    · exact .bind (contractual_round hadapter _ zs) fun zs' _ _ _ => ih zs'

/-- **With an adapter that never fails**, applying a batch fails by a broken contract only. -/
theorem contractual_toRoot (b : Batch N) : (b.toRoot adapter).Contractual := by
  refine .bind (contractual_reconcile hadapter _ _) fun zs _ _ _ => ?_
  split
  · exact Zipper.contractual_toRoot hadapter _
  · exact .pure _

end Batch

end NeverFails

variable {A κ : Type} {β : κ → Type}

/-! ### A root that is alone -/

namespace Ledger

/-- The root is **alone**: no other context was discovered, and nothing was put beside a node. -/
structure Alone (l : Ledger N A β) : Prop where
  one : l.arena.size = 1
  aside : ∀ z ∈ l.log, z.edit.inserts = false

variable {l : Ledger N A β} {c : Context N A β}

/-- The first context hangs below none. -/
theorem InStep.link_root (h : l.InStep) (hc : l.arena[0]? = some c) : c.link = none := by
  cases hlink : c.link with
  | none => rfl
  | some link => exact absurd (h.tidy.before hc hlink) (Nat.not_lt_zero _)

theorem InStep.position_root (h : l.InStep) (hc : l.arena[0]? = some c) :
    l.arena.position c = [] :=
  Arena.Tidy.position_root c (h.link_root hc)

/-- The deletion of the root is in the log, once, and the root was not replaced. -/
theorem InStep.count_root (h : l.InStep) (hc : l.arena[0]? = some c) (hdeleted : c.deleted = true) :
    (l.log.map Zipper.mark).count (.delete, []) = 1 ∧
      (l.log.map Zipper.mark).count (.replace, []) = 0 := by
  have hunchanged : c.changed = false := by
    by_contra hchanged
    have hkept := h.once hc (by simpa using hchanged)
    exact absurd (hdeleted.symm.trans hkept) (by decide)
  have hdelete : (l.log.map Zipper.mark).count (.delete, l.arena.position c) = _ :=
    h.counted hc rfl
  have hreplace : (l.log.map Zipper.mark).count (.replace, l.arena.position c) = _ :=
    h.counted hc rfl
  rw [h.position_root hc] at hdelete hreplace
  exact ⟨by rw [hdelete, Context.underwent, hdeleted, Bool.toNat_true],
    by rw [hreplace, Context.underwent, hunchanged, Bool.toNat_false]⟩

theorem InStep.exists_deletion (h : l.InStep) (hc : l.arena[0]? = some c)
    (hdeleted : c.deleted = true) : ∃ z ∈ l.log, z.edit = .delete ∧ z.crumbs = [] := by
  have hmem : (Edit.delete, []) ∈ l.log.map Zipper.mark := by
    rw [← List.count_pos_iff, (h.count_root hc hdeleted).1]
    exact Nat.one_pos
  obtain ⟨z, hz, hmark⟩ := List.mem_map.mp hmem
  obtain ⟨hedit, hposition⟩ := Prod.mk.inj hmark
  exact ⟨z, hz, hedit, List.map_eq_nil_iff.mp hposition⟩

/-- A root that is alone and was deleted has that deletion as the one edit of the log. -/
theorem Alone.length_log (hl : l.Alone) (h : l.InStep) (hc : l.arena[0]? = some c)
    (hdeleted : c.deleted = true) : l.log.length = 1 := by
  obtain ⟨hdelete, hreplace⟩ := h.count_root hc hdeleted
  have hmark : ∀ m ∈ l.log.map Zipper.mark, (Edit.delete, []) = m := by
    intro m hm
    obtain ⟨z, hz, rfl⟩ := List.mem_map.mp hm
    obtain ⟨id, d, hd, hposition⟩ := h.placed z hz (hl.aside z hz)
    obtain rfl : id = 0 := by
      have hid := Arena.lt_size_of_getElem? hd
      rw [hl.one] at hid
      omega
    rw [h.position_root hd] at hposition
    cases hedit : z.edit with
    | delete => rw [Zipper.mark, hedit, hposition]
    | replace =>
      refine absurd hreplace (Nat.ne_of_gt (List.count_pos_iff.mpr ?_))
      rw [← hedit, ← hposition]
      exact hm
    | insertBefore | insertAfter =>
      have haside := hl.aside z hz
      rw [hedit] at haside
      cases haside
  rw [← List.length_map Zipper.mark, ← List.count_eq_length.mpr hmark, hdelete]

end Ledger

namespace Spot

variable {spot : Spot N A β} {l : Ledger N A β} {c : Context N A β}

/-- Nothing is put beside a root. -/
theorem aside_perform [Identified N] [DecidableEq κ] (h : l.InStep)
    (hc : l.arena[spot.id]? = some c) (hlink : c.link = none) {q : Request N A β}
    (hq : q.IsRecorded) (haside : ∀ z ∈ l.log, z.edit.inserts = false) :
    ∀ z ∈ ((spot.perform q).runWith l).2.log, z.edit.inserts = false := by
  have hcontext := context_eq hc
  have hinsert : ∀ node edit, ((spot.insertBeside node edit).runWith l).2 = l := by
    intro node edit
    rw [insertBeside, Attempt.runWith_bind_ok (runWith_ensureRecording h.recording)]
    show (Attempt.runWith (if (spot.context l).link.isNone then _ else _) l).2 = l
    rw [hcontext, hlink]
    rfl
  cases q with
  | setVar key value => exact haside
  | setAccumulate accumulate => exact haside
  | change node => exact hq.elim
  | delete => exact hq.elim
  | insertBefore node =>
    rw [show (spot.perform (.insertBefore node)) = spot.insertBeside node .insertBefore from rfl,
      hinsert]
    exact haside
  | insertAfter node =>
    rw [show (spot.perform (.insertAfter node)) = spot.insertBeside node .insertAfter from rfl,
      hinsert]
    exact haside
  | replace node =>
    obtain ⟨r, c', log', hrun, hturn⟩ := replace_turn h.recording hc h.tidy node
    rw [show (spot.perform (.replace node)) = spot.replace node from rfl, hrun]
    show ∀ z ∈ log', z.edit.inserts = false
    cases hturn with
    | noted => exact haside
    | lost => exact haside
    | replaced _ _ mark =>
      refine List.forall_mem_append.mpr ⟨haside, fun z hz => ?_⟩
      obtain rfl := List.mem_singleton.mp hz
      rw [(Prod.mk.inj mark).1]
      rfl
    | amended _ _ swap =>
      -- amending an edit leaves its kind alone
      intro z hz
      have hmem : z.mark ∈ l.log.map Zipper.mark := by
        rw [← Batch.map_mark_swapFirst swap]
        exact List.mem_map_of_mem hz
      obtain ⟨y, hy, hmark⟩ := List.mem_map.mp hmem
      rw [← (Prod.mk.inj hmark).1]
      exact haside y hy
    | inserted idle => cases idle
  | remove =>
    have hdelete : spot.delete.runWith l = _ := runWith_delete
    rw [show (spot.perform .remove) = spot.remove from rfl, remove,
      Attempt.runWith_bind_ok (runWith_ensureRecording h.recording)]
    split at hdelete
    · rw [Attempt.runWith_bind_error hdelete]
      exact haside
    · split at hdelete
      · rw [Attempt.runWith_bind_error hdelete]
        exact haside
      · rw [Ledger.modifyAt_eq hc h.recording] at hdelete
        rw [Attempt.runWith_bind_ok hdelete]
        refine List.forall_mem_append.mpr ⟨haside, fun z hz => ?_⟩
        obtain rfl := List.mem_singleton.mp hz
        rfl

end Spot

namespace Traversal

variable [Identified N] [DecidableEq κ]

variable {plan : Plan N A β} {visitor : SequentialVisitor σ N A β} {inside : N → Prop}
  {s s' : State N A β} {own own' : σ}

namespace State

/-- The root is alone, and all that is left to do is to leave it. -/
structure Alone (s : State N A β) : Prop where
  ledger : s.ledger.Alone
  leaves : ∀ entry ∈ s.pending, entry = .leave 0

/-- A callback on the root leaves it alone. -/
theorem alone_call {careful : Prop} (h : s.Kept inside careful) (hl : s.ledger.Alone)
    {rootVars : Vars β} {phase : Phase}
    {callback : Callback σ (Cursor N A β) (Request N A β) Control} {control : Control}
    (hrequests : (callback own).Requests fun q => q.IsRecorded ∧ q.StaysIn inside)
    (hcall : (s.call rootVars 0 phase callback).runWith own = (.ok (control, s'), own')) :
    s'.ledger.Alone ∧ s'.pending = s.pending := by
  obtain ⟨c, hc⟩ : ∃ c, s.ledger.arena[0]? = some c :=
    ⟨_, Array.getElem?_eq_getElem (hl.one ▸ Nat.one_pos)⟩
  let start := { c with current := s.accumulate, next := none, phase := some phase }
  let spot : Spot N A β := ⟨0, start⟩
  have hkept := (h.mono (False.elim : False → careful)).ledger
  have hnoted := hkept.since.note hc (fun _ => start) rfl rfl rfl rfl
  -- throughout the callback the root is the one context, and the log holds no insertions
  let I (l : Ledger N A β) : Prop :=
    Ledger.Kept.Since inside False s.ledger l ∧ ∀ z ∈ l.log, z.edit.inserts = false
  have hperform : ∀ (q : Request N A β) l, q.IsRecorded ∧ q.StaysIn inside → I l →
      I ((spot.perform q).runWith l).2 := by
    intro q l hq hl'
    obtain ⟨d, hd⟩ := hl'.1.exists_context (hl.one ▸ Nat.one_pos)
    have hstep := hl'.1.kept.inStep
    exact ⟨hl'.1.perform spot (hl.one ▸ Nat.one_pos) hq nofun,
      Spot.aside_perform hstep hd (hstep.link_root hd) hq.1 hl'.2⟩
  have hstart : I (s.ledger.modifyAt 0 fun _ => start) := ⟨hnoted, hl.aside⟩
  have hend := Program.run_invariant (spot.cursor rootVars s.visited) hperform hrequests hstart
  rw [State.eq_of_call_ok hc hcall]
  exact ⟨⟨hend.1.size.trans hl.one, hend.2⟩, rfl⟩

omit [DecidableEq κ] in
/-- Discovering the children of a node does not delete it. -/
theorem deleted_of_expand {id : Nat} {c d : Context N A β} (hd : s.ledger.arena[id]? = some d)
    (hc : (s.expand plan id).ledger.arena[id]? = some c) : c.deleted = d.deleted := by
  rw [State.expand_self hd] at hc
  obtain rfl := Option.some.inj hc
  rfl

omit [DecidableEq κ] in
/-- A root that is deleted has no children to be discovered. -/
theorem alone_expand {d : Context N A β} (hl : s.ledger.Alone) (hnil : s.pending = [])
    (hd : s.ledger.arena[0]? = some d) (hdeleted : d.deleted = true) :
    (s.expand plan 0).Alone := by
  have hnone : plan.below d = .empty := if_pos hdeleted
  refine ⟨⟨?_, ?_⟩, ?_⟩
  · rw [State.expand_size hd, hl.one, hnone]
    rfl
  · rw [State.expand_eq hd]
    exact hl.aside
  · rw [State.expand_pending hd, hnone, hnil]
    cases plan.mode <;> exact fun _ => List.mem_singleton.mp

end State

section Runs

variable {adapter : Adapter σ N} {rootVars : Vars β} {root : N}
  (hroles : ∀ node, inside node → (plan.children node).roles.Nodup)
  (hchildren : ∀ node, inside node → ∀ child ∈ (plan.children node).flatten, inside child)
  (hvisitor : visitor.Requests fun q => q.IsRecorded ∧ q.StaysIn inside) (hroot : inside root)

include hvisitor hroot

omit [DecidableEq κ] hvisitor in
theorem start_alone (plan : Plan N A β) : (start plan true [root]).Kept inside True ∧
    (start plan true [root]).ledger.Alone :=
  ⟨start_kept plan hroot True, rfl, fun _ hz => absurd hz List.not_mem_nil⟩

/-- A root that is deleted on entering it stays alone. -/
theorem alone_first {m : Moment σ N A β} {c : Context N A β}
    (hm : momentAfter plan visitor root own 1 = some m)
    (hc : m.state.ledger.arena[0]? = some c) (hdeleted : c.deleted = true) : m.state.Alone := by
  rw [momentAfter, momentAfter, Option.bind_some, Moment.next] at hm
  dsimp only at hm
  split at hm
  · next hpending => cases hpending
  · next entry pending hpending =>
    obtain ⟨rfl, rfl⟩ : Entry.visit 0 = entry ∧ [] = pending := List.cons.inj hpending
    split at hm
    · next s₂ own₂ hstep =>
      cases hm
      obtain ⟨hkept, halone⟩ := start_alone hroot plan
      have hpopped : State.Kept inside True { start plan true [root] with pending := [] } :=
        hkept.sublist rfl (List.nil_sublist _)
      obtain ⟨control, s₁, hcall, hrest⟩ := step_cases hstep
      obtain ⟨hledger, hnone⟩ := State.alone_call hpopped halone (hvisitor _ own) hcall
      rcases hrest with ⟨hsame, hleft⟩ | ⟨visited, -, rfl⟩
      · refine ⟨hsame ▸ hledger, fun entry hentry => ?_⟩
        have hnil : s₂.pending = [] := hleft.elim (·.trans hnone) id
        rw [hnil] at hentry
        cases hentry
      · -- the children of a deleted node are not discovered
        obtain ⟨d, hd⟩ : ∃ d, s₁.ledger.arena[0]? = some d :=
          ⟨_, Array.getElem?_eq_getElem (hledger.one ▸ Nat.one_pos)⟩
        have hsame := State.deleted_of_expand (s := { s₁ with visited }) hd hc
        exact State.alone_expand (s := { s₁ with visited }) hledger hnone hd
          (hsame.symm.trans hdeleted)
    · cases hm

include hroles hchildren

/-- A root that is alone stays alone. -/
theorem alone_next {k : Nat} {m m' : Moment σ N A β}
    (hm : momentAfter plan visitor root own k = some m) (halone : m.state.Alone)
    (hnext : m.next plan visitor = some m') : m'.state.Alone := by
  have hkept := (momentAfter_kept hroles hchildren hvisitor hroot hm).state
  rw [Moment.next] at hnext
  split at hnext
  · cases hnext
    exact halone
  · next entry pending hpending =>
    dsimp only at hnext
    split at hnext
    · next s₂ own₂ hstep =>
      cases hnext
      obtain rfl : entry = .leave 0 := halone.leaves entry (hpending ▸ List.mem_cons_self)
      have hpopped : State.Kept inside (∀ a ∈ m.asked, a.Unmistaken) { m.state with pending } :=
        hkept.sublist rfl (hpending ▸ List.sublist_cons_self _ pending)
      obtain ⟨control, s₁, hcall, hrest⟩ := step_cases hstep
      obtain ⟨hledger, hleft⟩ := State.alone_call hpopped halone.ledger (hvisitor _ m.own) hcall
      rcases hrest with ⟨hsame, hpend⟩ | ⟨visited, hvisit, -⟩
      · refine ⟨hsame ▸ hledger, fun entry hentry => ?_⟩
        rcases hpend with hpend | hpend
        · rw [hpend, hleft] at hentry
          exact halone.leaves entry (hpending ▸ List.mem_cons_of_mem _ hentry)
        · rw [hpend] at hentry
          cases hentry
      · cases hvisit
    · cases hnext

/-- **A root deleted on entering it** is alone at every later moment. -/
theorem alone_after {m₁ : Moment σ N A β} {c : Context N A β}
    (hm₁ : momentAfter plan visitor root own 1 = some m₁)
    (hc : m₁.state.ledger.arena[0]? = some c) (hdeleted : c.deleted = true) {k : Nat}
    {m : Moment σ N A β} (hm : momentAfter plan visitor root own (k + 1) = some m) :
    m.state.Alone := by
  induction k generalizing m with
  | zero =>
    obtain rfl := Option.some.inj (hm₁.symm.trans hm)
    exact alone_first hvisitor hroot hm₁ hc hdeleted
  | succ k ih =>
    obtain ⟨m₀, hm₀, hnext⟩ := Option.bind_eq_some_iff.mp hm
    exact alone_next hroles hchildren hvisitor hroot hm₀ (ih hm₀) hnext

end Runs

section Transforms

variable {adapter : Adapter σ N} {visitor : TransformVisitor σ N β} {rootVars : Vars β} {root : N}

/-- **A transformation that ends with its root deleted** gives no tree if the deletion is all that
was recorded, which is so whenever the root was deleted on entering it. If anything was edited below
the root before that, the transformation is refused as a broken contract. -/
theorem transform_deleted {limit : Nat} {s : State N Unit β} {own' : σ} {c : Context N Unit β}
    (hroles : ∀ node, inside node → (adapter.children node).roles.Nodup)
    (hchildren : ∀ node, inside node → ∀ child ∈ (adapter.children node).flatten, inside child)
    (hadapter : ∀ node, adapter.NeverFailsAt node)
    (hvisitor : visitor.Requests fun q => q.IsRecorded ∧ q.StaysIn inside) (hroot : inside root)
    (hwalk : (walk (editPlan adapter rootVars) visitor true limit [root]).runWith own =
      (.ok s, own'))
    (hc : s.ledger.arena[0]? = some c) (hdeleted : c.deleted = true) :
    (s.ledger.log.length = 1 →
      (transform adapter visitor rootVars limit root).runWith own = (.ok none, own')) ∧
    (s.ledger.log.length ≠ 1 → ∃ e own'',
      (transform adapter visitor rootVars limit root).runWith own =
        (.error (.failed e), own'') ∧ e.kind = .invariant) ∧
    (∀ m c₁, momentAfter (editPlan adapter rootVars) visitor root own 1 = some m →
      m.state.ledger.arena[0]? = some c₁ → c₁.deleted = true → s.ledger.log.length = 1) := by
  obtain ⟨k, m, hm, rfl, -⟩ := exists_momentAfter_of_walk hwalk
  have hroles' : ∀ node, inside node →
      ((editPlan adapter rootVars).children node).roles.Nodup := hroles
  have hkept := momentAfter_kept hroles' hchildren hvisitor hroot hm
  have hstep := hkept.state.ledger.inStep
  obtain ⟨z, hz, hedit, hcrumbs⟩ := hstep.exists_deletion hc hdeleted
  let b : Batch N := { root, zippers := m.state.ledger.log }
  have htransform : (transform adapter visitor rootVars limit root).runWith own =
      (Walk.ofAttempt (b.toRoot adapter)).runWith own' :=
    Walk.runWith_bind_ok hwalk _
  rw [htransform]
  refine ⟨fun hone => ?_, fun hmany => ?_, fun m₁ c₁ hm₁ hc₁ hdeleted₁ => ?_⟩
  · have hlog : b.zippers = [z] := Batch.eq_singleton hz hone.le
    have hrun : (b.toRoot adapter).runWith own' = _ := Batch.toRoot_of_root hlog hcrumbs own'
    rw [hedit] at hrun
    exact Walk.runWith_ofAttempt_ok hrun
  · have hpos := List.length_pos_of_mem hz
    obtain ⟨e, own'', hrun⟩ := Batch.toRoot_error_of_root (b := b) adapter hz hcrumbs
      (by rw [hedit]; decide) (by show 2 ≤ m.state.ledger.log.length; omega) own'
    exact ⟨e, own'', Walk.runWith_ofAttempt_error hrun,
      Batch.contractual_toRoot hadapter b _ _ _ hrun⟩
  · cases k with
    | zero =>
      -- nothing is deleted before the first step
      cases hm
      obtain rfl := Option.some.inj hc
      cases hdeleted
    | succ k =>
      have halone := alone_after hroles' hchildren hvisitor hroot hm₁ hc₁ hdeleted₁ hm
      exact halone.ledger.length_log hstep hc hdeleted

end Transforms

/-! ### Deletions on tables -/

section Tables

open Arborist.Graph

theorem replaceAll_ok (name : String) {c : Children Node} {groups : List (Role × List Node)}
    (h : ∀ g ∈ groups, g.1 ∈ c.roles) : ∃ c', Table.replaceAll name c groups = .ok c' := by
  induction groups generalizing c with
  | nil => exact ⟨c, rfl⟩
  | cons g groups ih =>
    rw [List.forall_mem_cons] at h
    obtain ⟨p, hp, hrole⟩ := List.mem_map.mp h.1
    cases hget : c.get? g.1 with
    | none =>
      -- a role that is listed has a list
      exfalso
      obtain ⟨all⟩ := c
      have hnone : ∀ q ∈ all, q.1 ≠ g.1 := by
        clear ih h hp
        simp only [Children.get?] at hget
        induction all with
        | nil => simp
        | cons q all ih =>
          rw [Children.lookup] at hget
          split at hget
          · cases hget
          · next hq => exact List.forall_mem_cons.mpr ⟨hq, ih hget⟩
      exact hnone p hp hrole
    | some old =>
      rw [Table.replaceAll, hget]
      refine ih fun q hq => ?_
      rw [Children.roles_insert_of_get? hget]
      exact h.2 q hq

/-- A table that rejects no node never fails. -/
theorem neverFailsAt {t : Table} (haccepted : t.rejected = []) (node : Node) :
    (t.adapter : Adapter Nat Node).NeverFailsAt node := by
  intro c s hroles
  have hheld : ∀ g ∈ c.groups, g.1 ∈ (t.children node).roles := by
    intro g hg
    have hmem : g.1 ∈ c.roles := List.mem_map_of_mem hg
    rw [hroles] at hmem
    exact hmem
  obtain ⟨c', hc'⟩ := replaceAll_ok node.label hheld
  refine ⟨.built s node.label c', s + 1, ?_⟩
  show (t.rebuild node c).runWith s = _
  rw [Table.rebuild, if_neg (by simp [haccepted]), hc']
  rfl

/-- The visitor whose deeds on entering and on leaving go by the name of the node. -/
def onBoth (enter leave : String → Deed) : TransformVisitor Nat Node (fun _ : Unit => Nat) :=
  (byName enter leave).comap Cursor.sight

/-- A node is deleted when it is visited. -/
def deleting (name : String) : String → Deed :=
  fun here => if here = name then { requests := [.remove] } else {}

/-- One of the two children is replaced on entering it. -/
def lateEnter : String → Deed
  | "a" => { requests := [.replace (.listed "n")] }
  | _ => {}

theorem deleting_recorded (name here : String) :
    ∀ q ∈ (deleting name here).requests, q.IsRecorded ∧ q.StaysIn Listed := by
  rw [deleting]
  split <;> simp [Request.IsRecorded, Request.StaysIn]

theorem onBoth_requests {enter leave : String → Deed}
    (henter : ∀ name, ∀ q ∈ (enter name).requests, q.IsRecorded ∧ q.StaysIn Listed)
    (hleave : ∀ name, ∀ q ∈ (leave name).requests, q.IsRecorded ∧ q.StaysIn Listed) :
    (onBoth enter leave).Requests fun q => q.IsRecorded ∧ q.StaysIn Listed :=
  Visitor.Requests.comap (byName_requests henter hleave) Cursor.sight

/-- What was checked of the outcome of a walk that ends. -/
theorem exists_of_checked {α : Type} {x : Walk Nat α} (own : Nat) {p : α → Bool}
    (h : (match (x.runWith own).1 with
      | .ok a => p a
      | .error _ => false) = true) : ∃ a own', x.runWith own = (.ok a, own') ∧ p a = true := by
  cases hrun : x.runWith own with
  | mk r own' =>
    rw [hrun] at h
    cases r with
    | ok a => exact ⟨a, own', rfl, h⟩
    | error i => cases h

/-- What was checked of the error of a walk that fails. -/
theorem exists_of_refused {α : Type} {x : Walk Nat α} {own : Nat} {e : Error}
    (h : (match (x.runWith own).1 with
      | .error (.failed e') => decide (e' = e)
      | _ => false) = true) : ∃ own', x.runWith own = (.error (.failed e), own') := by
  cases hrun : x.runWith own with
  | mk r own' =>
    rw [hrun] at h
    split at h
    · next e' hr =>
      obtain rfl := of_decide_eq_true h
      exact ⟨own', by rw [show r = _ from hr]⟩
    · cases h

theorem idle_recorded (name : String) :
    ∀ q ∈ ((fun _ => {} : String → Deed) name).requests, q.IsRecorded ∧ q.StaysIn Listed :=
  fun _ hq => absurd hq List.not_mem_nil

theorem transform_deleted_alone :
    (∃ own', (transform (pairTable.adapter : Adapter Nat Node)
        (onBoth (deleting "root") fun _ => {}) .empty 10 (.listed "root")).runWith 0 =
          (.ok none, own')) ∧
      ∃ own', (transform (pairTable.adapter : Adapter Nat Node)
        (onBoth (fun _ => {}) (deleting "root")) .empty 10 (.listed "root")).runWith 0 =
          (.ok none, own') := by
  have hclosed : ∀ node, Listed node → ∀ child ∈ (pairTable.children node).flatten, Listed child :=
    fun _ hnode _ => listed_of_mem_children hnode
  refine ⟨?_, ?_⟩
  · obtain ⟨s, own', hwalk, hchecked⟩ := exists_of_checked 0
      (x := walk (editPlan (pairTable.adapter : Adapter Nat Node) .empty)
        (onBoth (deleting "root") fun _ => {}) true 10 [.listed "root"])
      (p := fun s => s.ledger.arena[0]?.any Context.deleted)
      (by decide +kernel)
    obtain ⟨c, hc, hdeleted⟩ := (Option.any_eq_true _ _).mp hchecked
    obtain ⟨hone, -, hentering⟩ := transform_deleted (fun _ => pair_roles) hclosed
      (neverFailsAt rfl) (onBoth_requests (deleting_recorded "root") idle_recorded) ⟨"root", rfl⟩
      hwalk hc hdeleted
    -- it was deleted with the first step
    have hfirst : (momentAfter (editPlan (pairTable.adapter : Adapter Nat Node) .empty)
        (onBoth (deleting "root") fun _ => {}) (.listed "root") 0 1).any (fun m =>
          m.state.ledger.arena[0]?.any Context.deleted) = true := by
      decide +kernel
    obtain ⟨m, hm, hroot⟩ := (Option.any_eq_true _ _).mp hfirst
    obtain ⟨c₁, hc₁, hdeleted₁⟩ := (Option.any_eq_true _ _).mp hroot
    exact ⟨own', hone (hentering m c₁ hm hc₁ hdeleted₁)⟩
  · obtain ⟨s, own', hwalk, hchecked⟩ := exists_of_checked 0
      (x := walk (editPlan (pairTable.adapter : Adapter Nat Node) .empty)
        (onBoth (fun _ => {}) (deleting "root")) true 10 [.listed "root"])
      (p := fun s => s.ledger.arena[0]?.any Context.deleted && s.ledger.log.length == 1)
      (by decide +kernel)
    obtain ⟨hdeleted, hlength⟩ := Bool.and_eq_true_iff.mp hchecked
    obtain ⟨c, hc, hdeleted⟩ := (Option.any_eq_true _ _).mp hdeleted
    obtain ⟨hone, -⟩ := transform_deleted (fun _ => pair_roles) hclosed (neverFailsAt rfl)
      (onBoth_requests idle_recorded (deleting_recorded "root")) ⟨"root", rfl⟩ hwalk hc hdeleted
    exact ⟨own', hone (beq_iff_eq.mp hlength)⟩

/-- A child is replaced on entering it, and then the root is deleted on leaving it. -/
def lateVisitor : SightVisitor Nat Node Unit (fun _ : Unit => Nat) :=
  byName lateEnter (deleting "root")

/-- **A late deletion of the root is refused** where something was edited before: the tree is finite
and without repetitions, the adapter and the visitor never fail, every edit is granted and the root
ends up deleted, but the transformation fails as if the root had been edited twice. -/
theorem transform_deleted_late :
    (∃ all, (pairTable.adapter : Adapter Nat Node).Forest [.listed "root"] all ∧
      (all.map identity).Nodup) ∧
      (∀ node, (pairTable.adapter : Adapter Nat Node).NeverFailsAt node) ∧
      lateVisitor.Complies ∧ lateVisitor.Requests Request.IsRecorded ∧
      (∃ s own', (walk (editPlan (pairTable.adapter : Adapter Nat Node) .empty)
          (lateVisitor.comap Cursor.sight) true 10 [.listed "root"]).runWith 0 = (.ok s, own') ∧
        s.ledger.arena[0]?.any Context.deleted = true) ∧
      ∃ own'', (transform (pairTable.adapter : Adapter Nat Node) (lateVisitor.comap Cursor.sight)
        .empty 10 (.listed "root")).runWith 0 = (.error (.failed .rootEditedTwice), own'') := by
  refine ⟨⟨["root", "a", "b"].map .listed, ?_, by decide⟩, neverFailsAt rfl, ?_, ?_,
    exists_of_checked 0 (by decide +kernel), exists_of_refused (by decide +kernel)⟩
  · exact .tree ((leaf_forest "a" rfl).append (leaf_forest "b" rfl)) rfl
  · refine byName_complies fun name => ?_
    rw [deleting]
    split <;> decide
  · refine byName_requests (fun name => ?_) fun name q hq => (deleting_recorded "root" name q hq).1
    unfold lateEnter
    split <;> simp [Request.IsRecorded]

end Tables

end Traversal

end Arborist
