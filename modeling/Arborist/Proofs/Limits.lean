import Arborist.Proofs.Levels

/-!
# Walks within their limit

How long a walk can be, for visitors that only **make notes**: they set variables and accumulates and
leave the nodes alone. Every node is entered once, and then it adds its children and its leaving to
what is pending. So the pending entries and the weights of the nodes that are still to be entered
bound the steps to come, where a node weighs more than it has children.

* `outstanding`: the weight of what was not entered yet.
* `step_outstanding`: one step takes an entry away and adds no more than it takes from that weight.
* `steps_ends`: a walk ends within its limit if nothing more than that is pending.
* `steps_of_le` and `traverse_of_le`: a walk that ends within its limit is the same with any larger
  one.
-/

namespace Arborist

variable {σ N A κ : Type} {β : κ → Type}

/-- A request **makes notes** if it sets a variable or the accumulate. -/
def Request.MakesNotes : Request N A β → Prop
  | .setVar _ _ => True
  | .setAccumulate _ => True
  | _ => False

/-- A request that makes notes goes on with no other node. -/
theorem Request.MakesNotes.staysIn {q : Request N A β} (h : q.MakesNotes) (inside : N → Prop) :
    q.StaysIn inside := by
  cases q <;> trivial

theorem Program.Requests.imp {V Q α : Type} {P R : Q → Prop} {p : Program V Q α}
    (h : p.Requests P) (himp : ∀ q, P q → R q) : p.Requests R := by
  induction p with
  | done a => trivial
  | look next ih => exact fun v => ih v (h v)
  | ask q next ih => exact ⟨himp q h.1, fun r => ih r (h.2 r)⟩

theorem Program.Requests.comap {V W Q α : Type} {P : Q → Prop} {p : Program V Q α}
    (h : p.Requests P) (f : W → V) : (p.comap f).Requests P := by
  induction p with
  | done a => trivial
  | look next ih => exact fun w => ih (f w) (h (f w))
  | ask q next ih => exact ⟨h.1, fun r => ih r (h.2 r)⟩

/-- A callback that looks first sees through `g` what it is shown. -/
theorem Callback.comap_view {σ V W Q α : Type} (g : W → V) {f : V → Callback σ V Q α}
    {f' : W → Callback σ W Q α} (h : ∀ w s, f' w s = Program.comap g (f (g w) s)) :
    (Callback.view >>= f') = Callback.comap g (Callback.view >>= f) :=
  funext fun s => congrArg Program.look (funext fun w => h w s)

/-- So does what it does after a request. -/
theorem Callback.comap_request {σ V W Q α : Type} (g : W → V) (q : Q) {f : Unit → Callback σ V Q α}
    {f' : Unit → Callback σ W Q α} (h : ∀ s, f' () s = Program.comap g (f () s)) (s : σ) :
    (Callback.request q >>= f') s = Program.comap g ((Callback.request q >>= f) s) := by
  refine congrArg (Program.ask q) (funext fun r => ?_)
  cases r with
  | error e => rfl
  | ok u => exact h s

theorem Visitor.Requests.comap {V W Q : Type} {P : Q → Prop} {visitor : Visitor σ V Q}
    (h : visitor.Requests P) (f : W → V) : (visitor.comap f).Requests P := by
  intro phase own
  cases phase with
  | enter => exact (h .enter own).comap f
  | leave => exact (h .leave own).comap f
  | backRef => exact (h .backRef own).comap f

/-- The node of a context as it was first met, and as it stands. -/
def Arena.standing (arena : Arena N A β) (id : Nat) : Option (N × N) :=
  arena[id]?.map fun c => (c.first, c.node)

theorem Arena.standing_modify {arena : Arena N A β} {id : Nat}
    {f : Context N A β → Context N A β}
    (hf : ∀ c, arena[id]? = some c → (f c).first = c.first ∧ (f c).node = c.node) :
    Arena.standing (arena.modify id f) = arena.standing := by
  funext j
  rw [standing, standing, Array.getElem?_modify]
  split
  · next hj =>
    subst hj
    cases hc : arena[id]? with
    | none => rfl
    | some c =>
      obtain ⟨hfirst, hnode⟩ := hf c hc
      simp only [Option.map_some, hfirst, hnode]
  · rfl

/-- All contexts are of nodes inside, and stand as they were first met. -/
def Arena.Unchanged (inside : N → Prop) (arena : Arena N A β) : Prop :=
  ∀ id first node, arena.standing id = some (first, node) → inside first ∧ node = first

namespace Traversal

variable [Identified N] [DecidableEq κ] {inside : N → Prop} {plan : Plan N A β}
  {visitor : SequentialVisitor σ N A β} {s s' : State N A β} {own own' : σ}

/-- Making notes leaves the nodes of all contexts alone. -/
theorem perform_standing (spot : Spot N A β) {q : Request N A β} (hq : q.MakesNotes)
    (l : Ledger N A β) :
    ((spot.perform q).runWith l).2.arena.standing = l.arena.standing := by
  cases q with
  | setVar key value => exact Arena.standing_modify fun c _ => ⟨rfl, rfl⟩
  | setAccumulate accumulate => exact Arena.standing_modify fun c _ => ⟨rfl, rfl⟩
  | change | delete | replace | remove | insertBefore | insertAfter => exact hq.elim

section Call

variable {rootVars : Vars β} {id : Nat} {phase : Phase}
  {callback : Callback σ (Cursor N A β) (Request N A β) Control} {control : Control}
  (hcallback : Program.Requests Request.MakesNotes (callback own))

include hcallback

/-- A callback that makes notes changes neither the nodes nor what is pending or visited. -/
theorem call_standing
    (h : (s.call rootVars id phase callback).runWith own = (.ok (control, s'), own')) :
    s'.ledger.arena.standing = s.ledger.arena.standing ∧ s'.pending = s.pending ∧
      s'.visited = s.visited := by
  rw [State.call] at h
  split at h
  · simp only [Attempt.runWith_pure, Prod.mk.injEq, Except.ok.injEq] at h
    obtain ⟨⟨-, rfl⟩, -⟩ := h
    exact ⟨rfl, rfl, rfl⟩
  · next c hc =>
    simp only [Attempt.runWith, Callback.runOn] at h
    let start : Context N A β :=
      { c with current := s.accumulate, next := none, phase := some phase }
    have hstart : (s.ledger.modifyAt id fun _ => start).arena.standing =
        s.ledger.arena.standing := by
      refine Arena.standing_modify fun c' hc' => ?_
      obtain rfl : c = c' := Option.some.inj (hc.symm.trans hc')
      exact ⟨rfl, rfl⟩
    have hend := Program.run_invariant
      (I := fun l : Ledger N A β => l.arena.standing = s.ledger.arena.standing)
      (Spot.cursor ⟨id, start⟩ rootVars s.visited)
      (fun q l hq hl => (perform_standing ⟨id, start⟩ hq l).trans hl) hcallback hstart
    split at h
    · next hrun =>
      rw [hrun] at hend
      simp only [Prod.mk.injEq, Except.ok.injEq] at h
      obtain ⟨⟨-, rfl⟩, -⟩ := h
      exact ⟨hend, rfl, rfl⟩
    · simp at h

/-- Calling back and doing what the callback says adds nothing to what is pending. -/
theorem obey_standing
    (h : (s.call rootVars id phase callback >>= fun p => p.2.obey id p.1).runWith own =
      (.ok s', own')) :
    s'.ledger.arena.standing = s.ledger.arena.standing ∧ s'.pending.length ≤ s.pending.length ∧
      s'.visited = s.visited := by
  obtain ⟨⟨control, s₁⟩, own₁, hcall, hobey⟩ := Attempt.exists_of_bind_ok h
  obtain ⟨harena, hpending, hvisited⟩ := call_standing hcallback hcall
  obtain ⟨-, rfl | rfl⟩ := obey_cases hobey
  · exact ⟨harena, Nat.le_of_eq (congrArg _ hpending), hvisited⟩
  · exact ⟨harena, Nat.zero_le _, hvisited⟩

end Call

/-! ### The weight of what is to come -/

/-- The weight of a node until it is entered. -/
def due (weight : N → Nat) (visited : List (Identity N)) (n : N) : Nat :=
  if visited.contains (identity n) then 0 else weight n

/-- The weight of the nodes that were not entered yet. -/
def outstanding (weight : N → Nat) (nodes : List N) (visited : List (Identity N)) : Nat :=
  (nodes.map (due weight visited)).sum

section Outstanding

variable (weight : N → Nat) {nodes : List N} {visited : List (Identity N)} {n : N}

omit [DecidableEq κ] in
theorem due_cons_le (visited : List (Identity N)) (i : Identity N) (n : N) :
    due weight (i :: visited) n ≤ due weight visited n := by
  rw [due, due, List.contains_cons]
  cases visited.contains (identity n) <;> cases identity n == i <;> simp

omit [DecidableEq κ] in
theorem outstanding_cons_le (nodes : List N) (visited : List (Identity N)) (i : Identity N) :
    outstanding weight nodes (i :: visited) ≤ outstanding weight nodes visited := by
  induction nodes with
  | nil => exact Nat.le_refl _
  | cons m nodes ih =>
    simp only [outstanding, List.map_cons, List.sum_cons] at ih ⊢
    exact Nat.add_le_add (due_cons_le weight visited i m) ih

omit [DecidableEq κ] in
/-- A node that is entered takes its weight away. -/
theorem outstanding_cons (hn : n ∈ nodes) (hfirst : visited.contains (identity n) = false) :
    outstanding weight nodes (identity n :: visited) + weight n ≤
      outstanding weight nodes visited := by
  induction nodes with
  | nil => simp at hn
  | cons m nodes ih =>
    have hsplit : ∀ visited : List (Identity N), outstanding weight (m :: nodes) visited =
        due weight visited m + outstanding weight nodes visited := fun _ => rfl
    rw [hsplit, hsplit]
    rcases List.mem_cons.mp hn with rfl | hmem
    · have hnow : due weight visited n = weight n := by
        rw [due, hfirst, if_neg Bool.false_ne_true]
      have hthen : due weight (identity n :: visited) n = 0 := by
        rw [due, List.contains_cons, BEq.rfl, Bool.true_or, if_pos rfl]
      have hrest := outstanding_cons_le weight nodes visited (identity n)
      omega
    · have hm := due_cons_le weight visited (identity n) m
      have hrest := ih hmem
      omega

end Outstanding

/-! ### Steps -/

section Steps

variable {weight : N → Nat} {nodes : List N}
  (hclosed : ∀ n ∈ nodes, ∀ m ∈ (plan.children n).flatten, m ∈ nodes)
  (hweight : ∀ n ∈ nodes, (plan.children n).flatten.length < weight n)
  (hvisitor : visitor.Requests Request.MakesNotes)

omit [DecidableEq κ] in
include hclosed hweight in
/-- The children of an entered node are no more than its weight allows. -/
theorem expand_outstanding {id : Nat} {first node : N}
    (hid : s.ledger.arena.standing id = some (first, node))
    (hs : s.ledger.arena.Unchanged (· ∈ nodes)) :
    (s.expand plan id).ledger.arena.Unchanged (· ∈ nodes) ∧
      (s.expand plan id).visited = s.visited ∧
      (s.expand plan id).pending.length ≤ s.pending.length + weight first := by
  obtain ⟨hfirst, hnode⟩ := hs id first node hid
  obtain ⟨c, hc, hstanding⟩ := Option.map_eq_some_iff.mp hid
  obtain ⟨rfl, rfl⟩ := Prod.mk.inj hstanding
  refine ⟨?_, by rw [State.expand_eq hc], ?_⟩
  · intro j first node hj
    obtain ⟨d, hd, heq⟩ := Option.map_eq_some_iff.mp hj
    obtain ⟨rfl, rfl⟩ := Prod.mk.inj heq
    rcases State.expand_cases hd with ⟨d', hd', _, rfl⟩ | ⟨-, c', hc', p, hp, rfl⟩
    · exact hs j _ _ (Option.map_eq_some_iff.mpr ⟨d', hd', rfl⟩)
    · obtain rfl := Option.some.inj (hc.symm.trans hc')
      have hchild := mem_flatten_of_located (Plan.mem_of_below hp)
      exact ⟨hclosed _ (hnode ▸ hfirst) _ hchild, rfl⟩
  · have hcount : (plan.below c).flatten.length < weight c.first := by
      rw [Plan.below]
      split
      · exact Nat.zero_lt_of_lt (hweight _ hfirst)
      · rw [hnode]
        exact hweight _ hfirst
    rw [State.expand_pending hc, Mode.length_schedule, List.length_range']
    omega

include hclosed hweight hvisitor

/-- **One step** takes one entry away, and what it adds was outstanding before. -/
theorem step_outstanding {entry : Entry} (hs : s.ledger.arena.Unchanged (· ∈ nodes))
    (h : (step plan visitor entry s).runWith own = (.ok s', own')) :
    s'.ledger.arena.Unchanged (· ∈ nodes) ∧
      s'.pending.length + outstanding weight nodes s'.visited ≤
        s.pending.length + outstanding weight nodes s.visited := by
  have hsame : ∀ {s₁ : State N A β}, s₁.ledger.arena.standing = s.ledger.arena.standing →
      s₁.ledger.arena.Unchanged (· ∈ nodes) := by
    intro s₁ h₁
    rw [Arena.Unchanged, h₁]
    exact hs
  cases entry with
  | leave id =>
    obtain ⟨harena, hpending, hvisited⟩ := obey_standing (hvisitor .leave own) h
    exact ⟨hsame harena, hvisited ▸ Nat.add_le_add_right hpending _⟩
  | visit id =>
    cases hc : s.ledger.arena[id]? with
    | none =>
      rw [step_unknown hc] at h
      obtain rfl : s = s' := Except.ok.inj (congrArg Prod.fst h)
      exact ⟨hs, Nat.le_refl _⟩
    | some c =>
      cases hfirst : s.visited.contains (identity c.first) with
      | true =>
        rw [step_again hc hfirst] at h
        obtain ⟨harena, hpending, hvisited⟩ := obey_standing (hvisitor .backRef own) h
        exact ⟨hsame harena, hvisited ▸ Nat.add_le_add_right hpending _⟩
      | false =>
        have hid : s.ledger.arena.standing id = some (c.first, c.node) := by
          rw [Arena.standing, hc, Option.map_some]
        have hless := outstanding_cons weight (hs id _ _ hid).1 hfirst
        rw [step_first hc hfirst] at h
        obtain ⟨⟨control, s₁⟩, own₁, hcall, hrest⟩ := Attempt.exists_of_bind_ok h
        obtain ⟨harena, hpending, hvisited⟩ := call_standing (hvisitor .enter own) hcall
        obtain rfl : _ = s' := Except.ok.inj (congrArg Prod.fst hrest)
        cases control with
        | quit =>
          refine ⟨hsame harena, ?_⟩
          simp only [State.entered, State.halt, List.length_nil, hvisited]
          omega
        | abort =>
          refine ⟨hsame harena, ?_⟩
          simp only [State.entered, hpending, hvisited]
          omega
        | proceed =>
          obtain ⟨hexpand, hvisited', hpending'⟩ := expand_outstanding hclosed hweight
            (s := { s₁ with visited := identity c.first :: s₁.visited })
            (harena ▸ hid) (hsame harena)
          refine ⟨hexpand, ?_⟩
          rw [State.entered, hvisited']
          simp only [hpending, hvisited] at hpending' ⊢
          omega

/-- **A walk ends** within its limit if no more is pending and outstanding than that. -/
theorem steps_ends (limit : Nat) (s : State N A β) (own : σ)
    (hs : s.ledger.arena.Unchanged (· ∈ nodes))
    (hlimit : s.pending.length + outstanding weight nodes s.visited ≤ limit) :
    ((steps plan visitor limit s).runWith own).1 ≠ .error .exhausted := by
  induction limit generalizing s own with
  | zero =>
    have hnil : s.pending = [] := List.eq_nil_of_length_eq_zero (by omega)
    rw [steps_of_nil plan visitor hnil]
    exact nofun
  | succ limit ih =>
    cases hp : s.pending with
    | nil =>
      rw [steps_of_nil plan visitor hp]
      exact nofun
    | cons entry pending =>
      rw [steps_of_cons plan visitor hp]
      cases hstep : (step plan visitor entry { s with pending }).runWith own with
      | mk out own₁ =>
        cases out with
        | error e =>
          rw [Walk.runWith_bind_error (Walk.runWith_ofAttempt_error hstep)]
          exact nofun
        | ok s₁ =>
          rw [Walk.runWith_bind_ok (Walk.runWith_ofAttempt_ok hstep)]
          obtain ⟨harena, hle⟩ := step_outstanding hclosed hweight hvisitor
            (s := { s with pending }) hs hstep
          refine ih s₁ own₁ harena ?_
          simp only [hp, List.length_cons] at hlimit hle
          omega

end Steps

/-- A walk that ends within its limit is the same with any larger limit. -/
theorem steps_of_le {limit limit' : Nat} (hle : limit ≤ limit') (s : State N A β) (own : σ)
    (hends : ((steps plan visitor limit s).runWith own).1 ≠ .error .exhausted) :
    (steps plan visitor limit' s).runWith own = (steps plan visitor limit s).runWith own := by
  induction limit generalizing limit' s own with
  | zero =>
    cases hp : s.pending with
    | nil => rw [steps_of_nil plan visitor hp, steps_of_nil plan visitor hp]
    | cons entry pending =>
      refine absurd ?_ hends
      rw [steps.eq_def]
      simp only [hp]
      rfl
  | succ limit ih =>
    obtain ⟨limit', rfl⟩ := Nat.exists_eq_add_of_le hle
    rw [Nat.add_right_comm] at *
    cases hp : s.pending with
    | nil => rw [steps_of_nil plan visitor hp, steps_of_nil plan visitor hp]
    | cons entry pending =>
      rw [steps_of_cons plan visitor hp] at hends
      rw [steps_of_cons plan visitor hp, steps_of_cons plan visitor hp]
      cases hstep : (step plan visitor entry { s with pending }).runWith own with
      | mk out own₁ =>
        cases out with
        | error e =>
          rw [Walk.runWith_bind_error (Walk.runWith_ofAttempt_error hstep),
            Walk.runWith_bind_error (Walk.runWith_ofAttempt_error hstep)]
        | ok s₁ =>
          rw [Walk.runWith_bind_ok (Walk.runWith_ofAttempt_ok hstep)] at hends
          rw [Walk.runWith_bind_ok (Walk.runWith_ofAttempt_ok hstep),
            Walk.runWith_bind_ok (Walk.runWith_ofAttempt_ok hstep)]
          exact ih (Nat.le_add_right _ _) s₁ own₁ hends

/-- A walk over nodes that weigh no more than its limit, together with the number of its roots, is
not cut off, and a larger limit makes no difference. -/
theorem traverse_of_le {weight : N → Nat} {nodes roots : List N}
    (hclosed : ∀ n ∈ nodes, ∀ m ∈ (plan.children n).flatten, m ∈ nodes)
    (hweight : ∀ n ∈ nodes, (plan.children n).flatten.length < weight n)
    (hvisitor : visitor.Requests Request.MakesNotes) (hroots : ∀ root ∈ roots, root ∈ nodes)
    {limit limit' : Nat} (hlimit : roots.length + (nodes.map weight).sum ≤ limit)
    (hle : limit ≤ limit') (own : σ) :
    (traverse plan visitor limit' roots).runWith own =
      (traverse plan visitor limit roots).runWith own := by
  have hstart : (start plan false roots).ledger.arena.Unchanged (· ∈ nodes) := by
    intro j first node hj
    obtain ⟨c, hc, heq⟩ := Option.map_eq_some_iff.mp hj
    obtain ⟨rfl, rfl⟩ := Prod.mk.inj heq
    rw [start, List.getElem?_toArray] at hc
    obtain ⟨root, hroot, rfl⟩ := List.mem_map.mp (List.mem_of_getElem? hc)
    exact ⟨hroots root hroot, rfl⟩
  have houtstanding : outstanding weight nodes (start plan false roots).visited =
      (nodes.map weight).sum := rfl
  have hends := steps_ends hclosed hweight hvisitor limit (start plan false roots) own hstart (by
    rw [houtstanding]
    simpa [start] using hlimit)
  have hsteps := steps_of_le hle (start plan false roots) own hends
  cases hrun : (steps plan visitor limit (start plan false roots)).runWith own with
  | mk out own' =>
    rw [hrun] at hsteps
    cases out with
    | error i =>
      rw [traverse, traverse, walk, walk, Walk.runWith_bind_error hsteps,
        Walk.runWith_bind_error hrun]
    | ok s => rw [traverse, traverse, walk, walk, Walk.runWith_bind_ok hsteps,
        Walk.runWith_bind_ok hrun]

end Traversal

end Arborist
