import Arborist.Proofs.Descent

/-!
# Ledgers and desks

A callback of a walk works on a **ledger**, which holds the contexts of all nodes, and a callback of
the recursion on a **desk**, which holds the facts of one node. They cannot be told apart:

* `Arena.Chain` lists the facts of the contexts above a context, as the recursion has them at hand.
* `Spot.perform_agrees`: every request has the same answer on both sides, and leaves the context on
  the ledger with the facts on the desk.
-/

namespace Arborist

variable {σ N A κ : Type} {β : κ → Type}

/-! ### Chains of contexts -/

/-- The contexts above a link have the given facts, nearest first, and they all stand before place
`n` of the arena, each behind the next. -/
inductive Arena.Chain (arena : Arena N A β) : Nat → Option Link → List (Facts N A β) → Prop where
  | root (n : Nat) : Chain arena n none []
  | link {n : Nat} {link : Link} {c : Context N A β} {above : List (Facts N A β)}
      (before : link.parent < n) (found : arena[link.parent]? = some c)
      (rest : Chain arena link.parent c.link above) : Chain arena n (some link) (c.facts :: above)

namespace Arena

variable {arena arena' : Arena N A β} {n : Nat} {link : Option Link} {above : List (Facts N A β)}

theorem Chain.length_le (h : arena.Chain n link above) : above.length ≤ n := by
  induction h with
  | root => exact Nat.zero_le _
  | link before _ _ ih => exact Nat.lt_of_le_of_lt ih before

theorem Chain.mono {m : Nat} (h : arena.Chain n link above) (hle : n ≤ m) :
    arena.Chain m link above := by
  cases h with
  | root => exact .root m
  | link before found rest => exact .link (Nat.lt_of_lt_of_le before hle) found rest

/-- A chain depends on what stands before its place only. -/
theorem Chain.congr (h : arena.Chain n link above)
    (hsame : ∀ j, j < n → arena'[j]? = arena[j]?) : arena'.Chain n link above := by
  induction h with
  | root => exact .root _
  | link before found rest ih =>
    refine .link before ((hsame _ before).trans found) (ih fun j hj => hsame j ?_)
    exact Nat.lt_trans hj before

/-- Changing a context leaves the chain above it. -/
theorem Chain.modify (h : arena.Chain n link above) (f : Context N A β → Context N A β) :
    Chain (arena.modify n f) n link above :=
  h.congr fun j hj => by rw [Array.getElem?_modify, if_neg (Nat.ne_of_gt hj)]

/-- Climbing finds the whole chain. -/
theorem Chain.climb (h : arena.Chain n link above) {steps : Nat} (hsteps : above.length ≤ steps) :
    (arena.climb steps link).map (fun p => p.2.facts) = above ∧
      (arena.climb steps link).map (fun p => (⟨p.2.node, p.1⟩ : Crumb N)) =
        Facts.crumbs (link.map Link.location) above := by
  induction h generalizing steps with
  | root => cases steps <;> exact ⟨rfl, rfl⟩
  | link before found rest ih =>
    cases steps with
    | zero => simp at hsteps
    | succ steps =>
      obtain ⟨hfacts, hcrumbs⟩ := ih (Nat.le_of_succ_le_succ hsteps)
      simp only [Arena.climb, found, List.map_cons, hfacts, hcrumbs]
      exact ⟨trivial, rfl⟩

variable {id : Nat} {c : Context N A β}

/-- What a chain says about the context that it starts from. -/
theorem Chain.ancestors (h : arena.Chain id c.link above) (hid : id ≤ arena.size) :
    (arena.ancestors c).map (fun p => p.2.facts) = above :=
  (h.climb (Nat.le_trans h.length_le hid)).1

theorem Chain.crumbs (h : arena.Chain id c.link above) (hid : id ≤ arena.size) :
    arena.crumbs c = Facts.crumbs c.facts.location above :=
  (h.climb (Nat.le_trans h.length_le hid)).2

theorem Chain.place (h : arena.Chain id c.link above) (hid : id ≤ arena.size) :
    arena.place c = Crumb.place (Facts.crumbs c.facts.location above) := by
  rw [Crumb.place, ← h.crumbs hid, Arena.crumbs, Arena.place, List.map_map]
  rfl

end Arena

/-! ### Requests -/

/-- Two attempts on related states have the **same outcome** and leave related states. -/
def Attempt.AlikeAt {S T α : Type} (R : S → T → Prop) (x : Attempt S α) (y : Attempt T α) (s : S)
    (t : T) : Prop :=
  (x.runWith s).1 = (y.runWith t).1 ∧ R (x.runWith s).2 (y.runWith t).2

theorem Attempt.AlikeAt.bind {S T α γ : Type} {R : S → T → Prop} {x : Attempt S α}
    {y : Attempt T α} {s : S} {t : T} {f : α → Attempt S γ} {g : α → Attempt T γ}
    (h : Attempt.AlikeAt R x y s t) (hnext : ∀ a s t, R s t → Attempt.AlikeAt R (f a) (g a) s t) :
    Attempt.AlikeAt R (x >>= f) (y >>= g) s t := by
  obtain ⟨hout, hstate⟩ := h
  rw [Attempt.AlikeAt]
  cases hx : x.runWith s with
  | mk out s' =>
    cases hy : y.runWith t with
    | mk out' t' =>
      obtain rfl : out = out' := by simpa [hx, hy] using hout
      cases out with
      | error e =>
        rw [Attempt.runWith_bind_error hx, Attempt.runWith_bind_error hy]
        simpa [hx, hy] using hstate
      | ok a =>
        rw [Attempt.runWith_bind_ok hx, Attempt.runWith_bind_ok hy]
        exact hnext a s' t' (by simpa [hx, hy] using hstate)

/-- A ledger **agrees** with a desk: the context at `id` has the facts on the desk, and everything else
is as it was when the callback began. -/
structure Ledger.Agrees (arena : Arena N A β) (id : Nat) (c : Context N A β) (l : Ledger N A β)
    (d : Desk N A β) : Prop where
  context : ∃ c', l.arena = arena.modify id (fun _ => c') ∧ c'.facts = d.here ∧
    c'.link = c.link ∧ c'.children = c.children
  edits : l.edits = d.edits

theorem Array.getElem?_modify_of_some {α : Type} {a : Array α} {i : Nat} {x : α}
    (h : a[i]? = some x) (f : α → α) : (a.modify i f)[i]? = some (f x) := by
  rw [Array.getElem?_modify, if_pos rfl, h, Option.map_some]

theorem Array.getD_modify_const {α : Type} (a : Array α) {i : Nat} (hi : i < a.size) (x y : α) :
    (a.modify i fun _ => x).getD i y = x := by
  rw [Array.getD_eq_getD_getElem?, Array.getElem?_modify_of_some (Array.getElem?_eq_getElem hi),
    Option.getD_some]

theorem Array.modify_modify_const {α : Type} (a : Array α) (i : Nat) (x : α) (f : α → α) :
    (a.modify i fun _ => x).modify i f = a.modify i fun _ => f x := by
  apply Array.ext_getElem?
  intro j
  simp only [Array.getElem?_modify]
  split
  · rw [Option.map_map]
    rfl
  · rfl

namespace Spot

variable {arena : Arena N A β} {id : Nat} {c : Context N A β} {above : List (Facts N A β)}
  {l : Ledger N A β} {d : Desk N A β} (start : Context N A β)

variable (hchain : arena.Chain id c.link above) (hid : id < arena.size)
  (h : l.Agrees arena id c d)

include h

/-- A change of the context that shows in its facts only. -/
theorem agrees_modify {f : Context N A β → Context N A β} {here : Facts N A β}
    (hf : ∀ c', c'.facts = d.here → (f c').facts = here)
    (hkeep : ∀ c', (f c').link = c'.link ∧ (f c').children = c'.children) :
    (l.modifyAt id f).Agrees arena id c { d with here } := by
  obtain ⟨⟨c', harena, hfacts, hlink, hchildren⟩, hedits⟩ := h
  refine ⟨⟨f c', ?_, hf c' hfacts, (hkeep c').1.trans hlink, (hkeep c').2.trans hchildren⟩, hedits⟩
  rw [Ledger.modifyAt, harena, Array.modify_modify_const]

/-- A change of the record. -/
theorem agrees_edits (edits : Option (List (Zipper N))) :
    Ledger.Agrees arena id c { l with edits } { d with edits } :=
  ⟨h.context, rfl⟩

include hid

theorem context_facts : (Spot.context ⟨id, start⟩ l).facts = d.here := by
  obtain ⟨⟨c', harena, hfacts, -⟩, -⟩ := h
  rw [Spot.context, harena, Array.getD_modify_const arena hid, hfacts]

theorem context_node : (Spot.context ⟨id, start⟩ l).node = d.here.node :=
  congrArg Facts.node (context_facts start hid h)

theorem context_changed : (Spot.context ⟨id, start⟩ l).changed = d.here.changed :=
  congrArg Facts.changed (context_facts start hid h)

theorem context_deleted : (Spot.context ⟨id, start⟩ l).deleted = d.here.deleted :=
  congrArg Facts.deleted (context_facts start hid h)

theorem context_link :
    (Spot.context ⟨id, start⟩ l).link.isNone = d.here.location.isNone := by
  rw [← context_facts start hid h, Context.facts]
  cases (Spot.context ⟨id, start⟩ l).link <;> rfl

include hchain

theorem context_crumbs : l.arena.crumbs (Spot.context ⟨id, start⟩ l) =
    Facts.crumbs (c.link.map Link.location) above := by
  obtain ⟨⟨c', harena, hfacts, hlink, -⟩, -⟩ := h
  have hcontext : Spot.context ⟨id, start⟩ l = c' := by
    rw [Spot.context, harena, Array.getD_modify_const arena hid]
  have hc' : l.arena.Chain id c'.link above := by
    rw [hlink, harena]
    exact hchain.modify _
  have hsize : id ≤ l.arena.size := by
    rw [harena, Array.size_modify]
    exact Nat.le_of_lt hid
  rw [hcontext, hc'.crumbs hsize, Context.facts, hlink]

theorem context_place : Spot.place ⟨id, start⟩ l =
    Crumb.place (Facts.crumbs (c.link.map Link.location) above) := by
  rw [Crumb.place, ← context_crumbs start hchain hid h, Spot.place, Arena.place, Arena.crumbs,
    List.map_map]
  rfl

/-- An edit of the position is recorded alike. -/
theorem agrees_record (node : N) (edit : Edit) :
    (l.record (Spot.zipper ⟨id, start⟩ l node edit)).Agrees arena id c
      (d.record (Facts.crumbs (c.link.map Link.location) above) node edit) := by
  refine ⟨h.context, ?_⟩
  rw [Ledger.record, Desk.record, Spot.zipper, context_crumbs start hchain hid h, h.edits]

theorem change_agrees (node : N) :
    Attempt.AlikeAt (Ledger.Agrees arena id c) (Spot.change ⟨id, start⟩ node)
      (Desk.change (Facts.crumbs (c.link.map Link.location) above) node) l d := by
  change Attempt.AlikeAt _ (if (Spot.context ⟨id, start⟩ l).deleted then _ else _)
    (if d.here.deleted then _ else _) l d
  rw [context_deleted start hid h, context_place start hchain hid h]
  split
  · exact ⟨rfl, h⟩
  · exact ⟨rfl, agrees_modify h (fun c' hc' => by rw [← hc']; rfl) fun _ => ⟨rfl, rfl⟩⟩

theorem delete_agrees :
    Attempt.AlikeAt (Ledger.Agrees arena id c) (Spot.delete ⟨id, start⟩)
      (Desk.delete (Facts.crumbs (c.link.map Link.location) above)) l d := by
  change Attempt.AlikeAt _
    (if (Spot.context ⟨id, start⟩ l).deleted then _
      else if (Spot.context ⟨id, start⟩ l).changed then _ else _)
    (if d.here.deleted then _ else if d.here.changed then _ else _) l d
  rw [context_deleted start hid h, context_changed start hid h, context_place start hchain hid h]
  split
  · exact ⟨rfl, h⟩
  · split
    · exact ⟨rfl, h⟩
    · exact ⟨rfl, agrees_modify h (fun c' hc' => by rw [← hc']; rfl) fun _ => ⟨rfl, rfl⟩⟩

theorem ensureRecording_agrees :
    Attempt.AlikeAt (Ledger.Agrees arena id c) (Spot.ensureRecording ⟨id, start⟩)
      (Desk.ensureRecording (Facts.crumbs (c.link.map Link.location) above)) l d := by
  change Attempt.AlikeAt _ (if l.edits.isNone then _ else _) (if d.edits.isNone then _ else _) l d
  rw [h.edits, context_place start hchain hid h]
  split <;> exact ⟨rfl, h⟩

variable [Identified N]

theorem amend_agrees (previous : Identity N) (node : N) :
    Attempt.AlikeAt (Ledger.Agrees arena id c) (Spot.amend ⟨id, start⟩ previous node)
      (Desk.amend (Facts.crumbs (c.link.map Link.location) above) previous node) l d := by
  have hledger : Attempt.runWith get l = (.ok l, l) := rfl
  have hdesk : Attempt.runWith get d = (.ok d, d) := rfl
  rw [Attempt.AlikeAt, Spot.amend, Desk.amend, Attempt.runWith_bind_ok hledger,
    Attempt.runWith_bind_ok hdesk, h.edits, context_place start hchain hid h]
  cases d.edits.bind (Batch.swapFirst (identity ·.node = previous) node) with
  | some edits => exact ⟨rfl, agrees_edits h _⟩
  | none => exact ⟨rfl, h⟩

omit h in
theorem replace_agrees (node : N) (h : l.Agrees arena id c d) :
    Attempt.AlikeAt (Ledger.Agrees arena id c) (Spot.replace ⟨id, start⟩ node)
      (Desk.replace (Facts.crumbs (c.link.map Link.location) above) node) l d := by
  refine .bind (ensureRecording_agrees start hchain hid h) fun _ l d h => ?_
  change Attempt.AlikeAt _ (Spot.change ⟨id, start⟩ node >>= fun _ => _)
    (Desk.change _ node >>= fun _ => _) l d
  refine .bind (change_agrees start hchain hid h node) fun _ l' d' h' => ?_
  rw [context_changed start hid h, context_node start hid h]
  split
  · exact amend_agrees start hchain hid h' _ node
  · exact ⟨rfl, agrees_record start hchain hid h' node .replace⟩

omit h [Identified N] in
theorem remove_agrees (h : l.Agrees arena id c d) :
    Attempt.AlikeAt (Ledger.Agrees arena id c) (Spot.remove ⟨id, start⟩)
      (Desk.remove (Facts.crumbs (c.link.map Link.location) above)) l d := by
  refine .bind (ensureRecording_agrees start hchain hid h) fun _ l d h => ?_
  refine .bind (delete_agrees start hchain hid h) fun _ l d h => ⟨rfl, ?_⟩
  change (l.record (Spot.zipper ⟨id, start⟩ l (Spot.context ⟨id, start⟩ l).node .delete)).Agrees _ _ _
    (d.record _ d.here.node .delete)
  rw [context_node start hid h]
  exact agrees_record start hchain hid h _ .delete

omit h [Identified N] in
theorem insertBeside_agrees (node : N) (edit : Edit) (h : l.Agrees arena id c d) :
    Attempt.AlikeAt (Ledger.Agrees arena id c) (Spot.insertBeside ⟨id, start⟩ node edit)
      (Desk.insertBeside (Facts.crumbs (c.link.map Link.location) above) node edit) l d := by
  refine .bind (ensureRecording_agrees start hchain hid h) fun _ l d h => ?_
  change Attempt.AlikeAt _ (if (Spot.context ⟨id, start⟩ l).link.isNone then _ else _)
    (if d.here.location.isNone then _ else _) l d
  rw [context_link start hid h, context_place start hchain hid h]
  split
  · exact ⟨rfl, h⟩
  · exact ⟨rfl, agrees_record start hchain hid h node edit⟩

/-- **Every request** has the same answer on the ledger and on the desk, and leaves them in agreement. -/
theorem perform_agrees [DecidableEq κ] (q : Request N A β) :
    Attempt.AlikeAt (Ledger.Agrees arena id c) (Spot.perform ⟨id, start⟩ q)
      (Desk.perform (Facts.crumbs (c.link.map Link.location) above) q) l d := by
  cases q with
  | setVar key value =>
    exact ⟨rfl, agrees_modify h (fun c' hc' => by rw [← hc']; rfl) fun _ => ⟨rfl, rfl⟩⟩
  | setAccumulate accumulate =>
    exact ⟨rfl, agrees_modify h (fun c' hc' => by rw [← hc']; rfl) fun _ => ⟨rfl, rfl⟩⟩
  | change node => exact change_agrees start hchain hid h node
  | delete => exact delete_agrees start hchain hid h
  | replace node => exact replace_agrees start hchain hid node h
  | remove => exact remove_agrees start hchain hid h
  | insertBefore node => exact insertBeside_agrees start hchain hid node .insertBefore h
  | insertAfter node => exact insertBeside_agrees start hchain hid node .insertAfter h

end Spot

end Arborist
