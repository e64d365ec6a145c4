import Arborist.Traversal.Walk

/-!
# Walks as recursions

A depth-first walk, said as a **recursion** over the nodes, without a list of pending entries and
without an arena: a node is entered, its children are visited one after the other, and the node is
left.

* `Facts` are what a context knows about its node, and a `Sight` is what a callback can see: the
  facts of the node, of everything above it and, while it is being left, of its children. A
  visitor of sights visits a walk through `Visitor.comap`.
* `visit` is the recursion. It is cut off after a number of levels, and `descend` runs it over the
  roots of a walk.
* `Visitor.logging` makes a visitor keep a log of the callbacks and of what they were called on.
-/

namespace Arborist

/-! ### Visitors that see less -/

namespace Program

variable {V W Q S T α : Type}

/-- The program that sees things of type `W` through `f`. -/
def comap (f : W → V) : Program V Q α → Program W Q α
  | .done a => .done a
  | .look next => .look fun w => (next (f w)).comap f
  | .ask q next => .ask q fun r => (next r).comap f

theorem run_comap (f : W → V) (view : S → W) (perform : Q → Attempt S Unit) (p : Program V Q α)
    (s : S) : (p.comap f).run view perform s = p.run (fun s => f (view s)) perform s := by
  induction p generalizing s with
  | done a => rfl
  | look next ih => exact ih _ s
  | ask q next ih => exact ih _ _

/-- **Related states** stay related: two states that look alike, and on which every request has the
same answer and leads to related states, cannot be told apart by a program. -/
theorem run_related {R : S → T → Prop} {view : S → V} {view' : T → V}
    {perform : Q → Attempt S Unit} {perform' : Q → Attempt T Unit}
    (hview : ∀ s t, R s t → view s = view' t)
    (hperform : ∀ q s t, R s t → ((perform q).runWith s).1 = ((perform' q).runWith t).1 ∧
      R ((perform q).runWith s).2 ((perform' q).runWith t).2)
    (p : Program V Q α) {s : S} {t : T} (h : R s t) :
    (p.run view perform s).1 = (p.run view' perform' t).1 ∧
      R (p.run view perform s).2 (p.run view' perform' t).2 := by
  induction p generalizing s t with
  | done a => exact ⟨rfl, h⟩
  | look next ih =>
    rw [run, run, hview s t h]
    exact ih _ h
  | ask q next ih =>
    obtain ⟨hanswer, hnext⟩ := hperform q s t h
    simp only [run]
    rw [hanswer]
    exact ih _ hnext

/-- Every request of the program satisfies `P`, whatever it sees and is answered. -/
def Requests (P : Q → Prop) : Program V Q α → Prop
  | .done _ => True
  | .look next => ∀ v, (next v).Requests P
  | .ask q next => P q ∧ ∀ r, (next r).Requests P

/-- What every request preserves is preserved by the program. -/
theorem run_invariant {P : Q → Prop} {I : S → Prop} (view : S → V)
    {perform : Q → Attempt S Unit}
    (hperform : ∀ q s, P q → I s → I ((perform q).runWith s).2) {p : Program V Q α}
    (hp : p.Requests P) {s : S} (hs : I s) : I (p.run view perform s).2 := by
  induction p generalizing s with
  | done a => exact hs
  | look next ih => exact ih _ (hp _) hs
  | ask q next ih => exact ih _ (hp.2 _) (hperform q s hp.1 hs)

end Program

variable {σ V W Q : Type}

/-- The callback that sees things of type `W` through `f`. -/
def Callback.comap {α : Type} (f : W → V) (c : Callback σ V Q α) : Callback σ W Q α :=
  fun s => Program.comap f (c s)

/-- The visitor that sees things of type `W` through `f`. -/
def Visitor.comap (f : W → V) (visitor : Visitor σ V Q) : Visitor σ W Q where
  enter := visitor.enter.comap f
  leave := visitor.leave.comap f
  backRef := visitor.backRef.comap f

/-- The callback of a phase. -/
def Visitor.on (visitor : Visitor σ V Q) : Phase → Callback σ V Q Control
  | .enter => visitor.enter
  | .leave => visitor.leave
  | .backRef => visitor.backRef

/-- The callback that first writes down what it sees. -/
def Callback.logging (phase : Phase) (c : Callback σ V Q Control) :
    Callback (σ × List (Phase × V)) V Q Control :=
  fun (s, log) => .look fun v => Program.bind (c s) fun (r, s) => .done (r, (s, log ++ [(phase, v)]))

/-- The visitor that keeps a **log** of its callbacks: which callback it was, and what it saw when it
was called. -/
def Visitor.logging (visitor : Visitor σ V Q) : Visitor (σ × List (Phase × V)) V Q where
  enter := visitor.enter.logging .enter
  leave := visitor.leave.logging .leave
  backRef := visitor.backRef.logging .backRef

/-! ### Sights -/

/-- What a context knows about its node. -/
structure Facts (N A : Type) {κ : Type} (β : κ → Type) where
  node : N
  first : N
  changed : Bool := false
  deleted : Bool := false
  location : Option Location := none
  vars : Vars β := .empty
  current : A
  next : Option A := none
  phase : Option Phase := none

variable {N A κ : Type} {β : κ → Type}

/-- The facts of a node that was just discovered. -/
def Facts.discover (node : N) (location : Option Location) (accumulate : A) : Facts N A β :=
  { node, first := node, location, current := accumulate }

/-- The accumulate that is handed on. -/
def Facts.handedOn (f : Facts N A β) : A :=
  f.next.getD f.current

/-- What stays the same about a node while it is called back for. -/
structure Facts.Keeps (f g : Facts N A β) : Prop where
  first : g.first = f.first
  location : g.location = f.location
  current : g.current = f.current
  phase : g.phase = f.phase

theorem Facts.Keeps.refl (f : Facts N A β) : f.Keeps f :=
  ⟨rfl, rfl, rfl, rfl⟩

theorem Facts.Keeps.trans {f g h : Facts N A β} (hfg : f.Keeps g) (hgh : g.Keeps h) : f.Keeps h :=
  ⟨hgh.first.trans hfg.first, hgh.location.trans hfg.location, hgh.current.trans hfg.current,
    hgh.phase.trans hfg.phase⟩

/-- The way to the root from a location below some nodes, nearest crumb first. -/
def Facts.crumbs : Option Location → List (Facts N A β) → List (Crumb N)
  | some location, f :: above => ⟨f.node, location⟩ :: crumbs f.location above
  | _, _ => []

/-- Where a way leads, in words. -/
def Crumb.place (crumbs : List (Crumb N)) : String :=
  Location.place (crumbs.map Crumb.location).reverse

/-- The facts of a context. -/
def Context.facts (c : Context N A β) : Facts N A β :=
  { node := c.node, first := c.first, changed := c.changed, deleted := c.deleted,
    location := c.link.map Link.location, vars := c.vars, current := c.current, next := c.next,
    phase := c.phase }

variable [Identified N]

/-- What a callback can **see**. -/
structure Sight (N A : Type) {κ : Type} (β : κ → Type) [Identified N] where
  /-- The node that is being visited. -/
  here : Facts N A β
  /-- The nodes above it, nearest first. -/
  above : List (Facts N A β)
  /-- The children, while the node is being left. -/
  below : Option (Children (Facts N A β))
  rootVars : Vars β
  /-- The identities of the nodes that have been entered. -/
  visited : List (Identity N)

/-- What a cursor lets a callback see. -/
def Cursor.sight (cursor : Cursor N A β) : Sight N A β where
  here := cursor.here.facts
  above := (cursor.arena.ancestors cursor.here).map fun (_, above) => above.facts
  below := cursor.children?.map fun children => children.map Context.facts
  rootVars := cursor.rootVars
  visited := cursor.visited

/-! ### Requests at a position -/

/-- What the requests of a callback work on: the facts of its node, and the edits recorded so far. -/
structure Desk (N A : Type) {κ : Type} (β : κ → Type) where
  here : Facts N A β
  edits : Option (List (Zipper N))

namespace Desk

variable (crumbs : List (Crumb N))

/-- Adds an edit of this position to the record. -/
def record (d : Desk N A β) (node : N) (edit : Edit) : Desk N A β :=
  { d with edits := d.edits.map (· ++ [{ node, crumbs, edit }]) }

/-- Refuses to go on outside of a transformation. -/
def ensureRecording : Attempt (Desk N A β) Unit := do
  let d ← get
  if d.edits.isNone then throw (.notRecording (Crumb.place crumbs))

/-- Goes on with another node. -/
def change (node : N) : Attempt (Desk N A β) Unit := do
  let d ← get
  if d.here.deleted then
    throw (.changeOfDeleted (Crumb.place crumbs))
  else
    set { d with here := { d.here with node, changed := true } }

/-- Marks the node as deleted. -/
def delete : Attempt (Desk N A β) Unit := do
  let d ← get
  if d.here.deleted then
    throw (.deletedTwice (Crumb.place crumbs))
  else if d.here.changed then
    throw (.deleteOfChanged (Crumb.place crumbs))
  else
    set { d with here := { d.here with deleted := true } }

/-- Lets the recorded edit of `previous` carry `node` instead. -/
def amend (previous : Identity N) (node : N) : Attempt (Desk N A β) Unit := do
  let d ← get
  match d.edits.bind (Batch.swapFirst (identity ·.node = previous) node) with
  | some edits => set { d with edits := some edits }
  | none => throw (.noZipperForNodeAt (Crumb.place crumbs))

/-- Replaces the node and records it. -/
def replace (node : N) : Attempt (Desk N A β) Unit := do
  ensureRecording crumbs
  let before := (← get).here
  change crumbs node
  if before.changed then
    amend crumbs (identity before.node) node
  else
    modify fun d => d.record crumbs node .replace

/-- Deletes the node and records it. -/
def remove : Attempt (Desk N A β) Unit := do
  ensureRecording crumbs
  delete crumbs
  modify fun d => d.record crumbs d.here.node .delete

/-- Records that a node is put beside this one. -/
def insertBeside (node : N) (edit : Edit) : Attempt (Desk N A β) Unit := do
  ensureRecording crumbs
  let d ← get
  if d.here.location.isNone then
    throw (.besideRootAt (Crumb.place crumbs))
  else
    set (d.record crumbs node edit)

/-- Carries out a request at the position that the crumbs lead to. -/
def perform [DecidableEq κ] : Request N A β → Attempt (Desk N A β) Unit
  | .setVar key value =>
    modify fun d => { d with here := { d.here with vars := d.here.vars.insert key value } }
  | .setAccumulate accumulate =>
    modify fun d => { d with here := { d.here with next := some accumulate } }
  | .change node => change crumbs node
  | .delete => delete crumbs
  | .replace node => replace crumbs node
  | .remove => remove crumbs
  | .insertBefore node => insertBeside crumbs node .insertBefore
  | .insertAfter node => insertBeside crumbs node .insertAfter

section Requests

variable (d : Desk N A β)

omit [Identified N] in
theorem runWith_change (node : N) : (change crumbs node).runWith d =
    if d.here.deleted then (.error (.changeOfDeleted (Crumb.place crumbs)), d)
    else (.ok (), { d with here := { d.here with node, changed := true } }) := by
  obtain ⟨⟨_, _, changed, deleted, _, _, _, _, _⟩, edits⟩ := d
  cases deleted <;> rfl

omit [Identified N] in
theorem runWith_delete : (delete crumbs).runWith d =
    if d.here.deleted then (.error (.deletedTwice (Crumb.place crumbs)), d)
    else if d.here.changed then (.error (.deleteOfChanged (Crumb.place crumbs)), d)
    else (.ok (), { d with here := { d.here with deleted := true } }) := by
  obtain ⟨⟨_, _, changed, deleted, _, _, _, _, _⟩, edits⟩ := d
  cases deleted <;> cases changed <;> rfl

omit [Identified N] in
theorem runWith_remove : (remove crumbs).runWith d =
    if d.edits.isNone then (.error (.notRecording (Crumb.place crumbs)), d)
    else if d.here.deleted then (.error (.deletedTwice (Crumb.place crumbs)), d)
    else if d.here.changed then (.error (.deleteOfChanged (Crumb.place crumbs)), d)
    else (.ok (), { d with here := { d.here with deleted := true } }.record crumbs d.here.node
      .delete) := by
  obtain ⟨⟨_, _, changed, deleted, _, _, _, _, _⟩, edits⟩ := d
  cases edits <;> cases deleted <;> cases changed <;> rfl

omit [Identified N] in
theorem runWith_insertBeside (node : N) (edit : Edit) : (insertBeside crumbs node edit).runWith d =
    if d.edits.isNone then (.error (.notRecording (Crumb.place crumbs)), d)
    else if d.here.location.isNone then (.error (.besideRootAt (Crumb.place crumbs)), d)
    else (.ok (), d.record crumbs node edit) := by
  obtain ⟨⟨_, _, _, _, location, _, _, _, _⟩, edits⟩ := d
  cases edits <;> cases location <;> rfl

theorem runWith_amend (previous : Identity N) (node : N) :
    (amend crumbs previous node).runWith d =
      match d.edits.bind (Batch.swapFirst (identity ·.node = previous) node) with
      | some edits => (.ok (), { d with edits := some edits })
      | none => (.error (.noZipperForNodeAt (Crumb.place crumbs)), d) := by
  change (match d.edits.bind (Batch.swapFirst (identity ·.node = previous) node) with
    | some edits => _
    | none => _ : Attempt (Desk N A β) Unit).runWith d = _
  cases d.edits.bind (Batch.swapFirst (identity ·.node = previous) node) <;> rfl

theorem runWith_replace (node : N) : (replace crumbs node).runWith d =
    if d.edits.isNone then (.error (.notRecording (Crumb.place crumbs)), d)
    else if d.here.deleted then (.error (.changeOfDeleted (Crumb.place crumbs)), d)
    else if d.here.changed then
      (amend crumbs (identity d.here.node) node).runWith
        { d with here := { d.here with node, changed := true } }
    else (.ok (), { d with here := { d.here with node, changed := true } }.record crumbs node
      .replace) := by
  obtain ⟨⟨_, _, changed, deleted, _, _, _, _, _⟩, edits⟩ := d
  cases edits <;> cases deleted <;> cases changed <;> rfl

theorem perform_keeps [DecidableEq κ] (q : Request N A β) :
    d.here.Keeps ((perform crumbs q).runWith d).2.here := by
  cases q with
  | setVar key value => exact ⟨rfl, rfl, rfl, rfl⟩
  | setAccumulate accumulate => exact ⟨rfl, rfl, rfl, rfl⟩
  | change node =>
    rw [perform, runWith_change]
    split <;> exact ⟨rfl, rfl, rfl, rfl⟩
  | delete =>
    rw [perform, runWith_delete]
    repeat' split
    all_goals exact ⟨rfl, rfl, rfl, rfl⟩
  | replace node =>
    rw [perform, runWith_replace, runWith_amend]
    repeat' split
    all_goals exact ⟨rfl, rfl, rfl, rfl⟩
  | remove =>
    rw [perform, runWith_remove]
    repeat' split
    all_goals exact ⟨rfl, rfl, rfl, rfl⟩
  | insertBefore node =>
    rw [perform, runWith_insertBeside]
    repeat' split
    all_goals exact ⟨rfl, rfl, rfl, rfl⟩
  | insertAfter node =>
    rw [perform, runWith_insertBeside]
    repeat' split
    all_goals exact ⟨rfl, rfl, rfl, rfl⟩

end Requests

end Desk

/-! ### The recursion -/

namespace Traversal

/-- What a recursion threads through: the state of the visitor, and what the walk has come to. -/
structure Course (σ N A : Type) [Identified N] where
  own : σ
  visited : List (Identity N) := []
  accumulate : A
  edits : Option (List (Zipper N))

/-- Why a recursion ends early. -/
inductive Stop where
  /-- A callback failed, or broke a rule. -/
  | failed (e : Error)
  /-- A callback said so. -/
  | quit
  /-- There were more levels than the recursion may go down. -/
  | exhausted

/-- A part of a recursion. -/
abbrev Descent (σ N A : Type) [Identified N] := ExceptT Stop (StateM (Course σ N A))

/-- The outcome of a part of a recursion, and what the walk has come to then. -/
def Descent.runWith {α : Type} (x : Descent σ N A α) (course : Course σ N A) :
    Except Stop α × Course σ N A :=
  x course

/-- The visitors of sights. -/
abbrev SightVisitor (σ N A : Type) {κ : Type} (β : κ → Type) [Identified N] :=
  Visitor σ (Sight N A β) (Request N A β)

variable [DecidableEq κ]

/-- Calls back for a node, and gives what the callback said and the facts of the node then. -/
def consult (rootVars : Vars β) (visitor : SightVisitor σ N A β) (phase : Phase)
    (above : List (Facts N A β)) (below : Option (Children (Facts N A β))) (here : Facts N A β) :
    Descent σ N A (Control × Facts N A β) :=
  fun course =>
    let start := { here with current := course.accumulate, next := none, phase := some phase }
    let sight := fun d : Desk N A β =>
      { here := d.here, above, below, rootVars, visited := course.visited : Sight N A β }
    match (visitor.on phase).runOn sight (Desk.perform (Facts.crumbs here.location above)) course.own
        { here := start, edits := course.edits } with
    | ((.ok control, own), d) =>
      (.ok (control, d.here), { course with own, accumulate := d.here.handedOn, edits := d.edits })
    | ((.error e, own), _) => (.error (.failed e), { course with own })

section Consult

variable {rootVars : Vars β} {visitor : SightVisitor σ N A β} {phase : Phase}
  {above : List (Facts N A β)} {below : Option (Children (Facts N A β))} {here : Facts N A β}
  {course : Course σ N A} {own : σ} {d : Desk N A β}

/-- What a callback that succeeds comes to. -/
theorem consult_of_ok {control : Control}
    (h : (visitor.on phase).runOn (fun d => ⟨d.here, above, below, rootVars, course.visited⟩)
      (Desk.perform (Facts.crumbs here.location above)) course.own
      { here := { here with current := course.accumulate, next := none, phase := some phase }
        edits := course.edits } = ((.ok control, own), d)) :
    (consult rootVars visitor phase above below here).runWith course =
      (.ok (control, d.here),
        { course with own, accumulate := d.here.handedOn, edits := d.edits }) := by
  simp only [consult, Descent.runWith, h]

/-- What a callback that fails comes to. -/
theorem consult_of_error {e : Error}
    (h : (visitor.on phase).runOn (fun d => ⟨d.here, above, below, rootVars, course.visited⟩)
      (Desk.perform (Facts.crumbs here.location above)) course.own
      { here := { here with current := course.accumulate, next := none, phase := some phase }
        edits := course.edits } = ((.error e, own), d)) :
    (consult rootVars visitor phase above below here).runWith course =
      (.error (.failed e), { course with own }) := by
  simp only [consult, Descent.runWith, h]

end Consult

/-- Does what a callback said that may not pass over children. -/
def heed (above : List (Facts N A β)) (here : Facts N A β) : Control → Descent σ N A (Facts N A β)
  | .proceed => pure here
  | .quit => throw .quit
  | .abort => throw (.failed (.abortOutsideEnter (Crumb.place (Facts.crumbs here.location above))))

/-- **Visits** a node and everything below it. A node that was entered before is a back reference. Any
other node is entered, then its children are visited, which are those of the node as it stands then,
and then it is left. -/
def visit (plan : Plan N A β) (visitor : SightVisitor σ N A β) :
    Nat → List (Facts N A β) → Facts N A β → Descent σ N A (Facts N A β)
  | 0, _, _ => throw .exhausted
  | levels + 1, above, met => do
    if (← get).visited.contains (identity met.first) then
      let (control, here) ← consult plan.rootVars visitor .backRef above none met
      heed above here control
    else
      let (control, here) ← consult plan.rootVars visitor .enter above none met
      modify fun course => { course with visited := identity met.first :: course.visited }
      match control with
      | .quit => throw .quit
      | .abort => pure here
      | .proceed =>
        let children := if here.deleted then .empty else plan.children here.node
        let accumulate := (← get).accumulate
        let below ← children.located.mapM fun (location, child) =>
          visit plan visitor levels (here :: above) (.discover child (some location) accumulate)
        let (control, here) ←
          consult plan.rootVars visitor .leave above (some (children.regroup below)) here
        heed above here control

/-- The recursion over all roots. -/
def visitRoots (plan : Plan N A β) (visitor : SightVisitor σ N A β) (levels : Nat)
    (roots : List N) : Descent σ N A (List (Facts N A β)) :=
  roots.mapM fun root => visit plan visitor levels [] (.discover root none plan.initial)

/-- What a recursion comes to as a walk: to quit is to end. -/
def conclude {α : Type} : Except Stop α × Course σ N A → Except Interrupt A × σ
  | (.ok _, course) => (.ok course.accumulate, course.own)
  | (.error .quit, course) => (.ok course.accumulate, course.own)
  | (.error (.failed e), course) => (.error (.failed e), course.own)
  | (.error .exhausted, course) => (.error .exhausted, course.own)

/-- A walk as a **recursion**: the accumulate that the last callback hands on. -/
def descend (plan : Plan N A β) (visitor : SightVisitor σ N A β) (levels : Nat) (roots : List N) :
    Walk σ A :=
  fun own => conclude ((visitRoots plan visitor levels roots).runWith
    { own, accumulate := plan.initial, edits := none })

theorem runWith_descend (plan : Plan N A β) (visitor : SightVisitor σ N A β) (levels : Nat)
    (roots : List N) (own : σ) :
    (descend plan visitor levels roots).runWith own =
      conclude ((visitRoots plan visitor levels roots).runWith
        { own, accumulate := plan.initial, edits := none }) := rfl

end Traversal

end Arborist
