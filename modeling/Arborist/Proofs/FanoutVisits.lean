import Arborist.Fanout
import Arborist.Proofs.Forests
import Arborist.Proofs.Limits

/-!
# Fan-out walks visit like depth-first walks

A fan-out walk hands accumulates down and back, and a depth-first walk hands one on from each
callback to the next. Everything else that a callback may look at without editing is the same in
both: a `Glimpse`. A visitor of glimpses visits both kinds of walks (`Visitor.sequential`,
`Visitor.fanout`), and if it does not quit then both make the same callbacks, which see the same,
and both succeed or fail with the same error (`traverse_fanout`).

The frames of a fan-out walk are set beside the facts of the recursion that a depth-first walk is
(`Mirrors`), and what holds of one callback (`consult_endsLike`) carries over to visits
(`visit_endsLike`) and walks. The two disagree about whether the node that is being entered counts
as visited, so this is no part of a glimpse.
-/

namespace Arborist

variable {σ V W P Q S N A κ : Type} {β : κ → Type}

/-! ### Programs with other requests -/

namespace Program

variable {α γ : Type}

/-- The program that makes its requests through `g`. -/
def asking (g : Q → P) : Program V Q α → Program V P α
  | .done a => .done a
  | .look next => .look fun v => (next v).asking g
  | .ask q next => .ask (g q) fun r => (next r).asking g

theorem run_asking (g : Q → P) (view : S → V) (perform : P → Attempt S Unit) (p : Program V Q α)
    (s : S) : (p.asking g).run view perform s = p.run view (fun q => perform (g q)) s := by
  induction p generalizing s with
  | done a => rfl
  | look next ih => exact ih _ s
  | ask q next ih => exact ih _ _

/-- The requests that a program makes through `g`. -/
theorem Requests.asking {R : P → Prop} {g : Q → P} {p : Program V Q α}
    (h : p.Requests fun q => R (g q)) : (p.asking g).Requests R := by
  induction p with
  | done a => trivial
  | look next ih => exact fun v => ih v (h v)
  | ask q next ih => exact ⟨h.1, fun r => ih r (h.2 r)⟩

theorem Ends.bind {R : α → Prop} {R' : γ → Prop} {p : Program V Q α} {f : α → Program V Q γ}
    (h : p.Ends R) (hf : ∀ a, R a → (f a).Ends R') : (p.bind f).Ends R' := by
  induction p with
  | done a => exact hf a h
  | look next ih => exact fun v => ih v (h v)
  | ask q next ih => exact fun r => ih r (h r)

end Program

theorem Walk.runWith_get_bind {α : Type} (s : S) (f : S → Walk S α) :
    (get >>= f).runWith s = (f s).runWith s :=
  rfl

/-- The visitor that makes its requests through `g`. -/
def Visitor.asking (g : Q → P) (visitor : Visitor σ V Q) : Visitor σ V P where
  enter := fun own => Program.asking g (visitor.enter own)
  leave := fun own => Program.asking g (visitor.leave own)
  backRef := fun own => Program.asking g (visitor.backRef own)

/-- The visitor **never quits**. -/
def Visitor.NeverQuits (visitor : Visitor σ V Q) : Prop :=
  ∀ phase own, Program.Ends (fun out => out.1 ≠ .ok .quit) (visitor.on phase own)

theorem Visitor.NeverQuits.logging {visitor : Visitor σ V Q} (h : visitor.NeverQuits) :
    visitor.logging.NeverQuits := by
  rintro phase ⟨own, log⟩
  have hphase := h phase own
  cases phase <;> exact fun v => hphase.bind fun _ hout => hout

/-! ### Glimpses -/

/-- What both kinds of walks let a callback see: a **glimpse**. -/
structure Glimpse (N : Type) {κ : Type} (β : κ → Type) where
  phase : Phase
  node : N
  location : Option Location
  /-- The way to the root, nearest crumb first. -/
  crumbs : List (Crumb N)
  /-- The nodes above, nearest first. -/
  parents : List N
  /-- The variables of the node. -/
  var? : ∀ k, Option (β k)
  /-- The variables of the nearest node above that has one, else the root variables. -/
  inherited? : ∀ k, Option (β k)

/-- The request of a fan-out walk, made in a sequential walk. -/
def Fanout.Request.sequential : Fanout.Request A β → Arborist.Request N A β
  | .setVar key value => .setVar key value
  | .setAccumulate accumulate => .setAccumulate accumulate

variable [Identified N] [DecidableEq κ]

/-- What a cursor lets a visitor of glimpses see. -/
def Cursor.glimpse (cursor : Cursor N A β) : Glimpse N β where
  phase := cursor.here.phase.getD .enter
  node := cursor.here.node
  location := cursor.here.link.map Link.location
  crumbs := cursor.crumbs
  parents := cursor.parents
  var? := cursor.here.vars.get?
  inherited? := cursor.arena.inherited? cursor.rootVars cursor.here

/-- What a branch lets a visitor of glimpses see. -/
def Fanout.Branch.glimpse (b : Branch N A β) : Glimpse N β where
  phase := b.phase
  node := b.node
  location := b.location
  crumbs := b.crumbs
  parents := b.frames.map Frame.node
  var? := b.vars.get?
  inherited? := b.inherited?

/-- What a sight lets a visitor of glimpses see. -/
def Sight.glimpse (sight : Sight N A β) : Glimpse N β where
  phase := sight.here.phase.getD .enter
  node := sight.here.node
  location := sight.here.location
  crumbs := Facts.crumbs sight.here.location sight.above
  parents := sight.above.map Facts.node
  var? := sight.here.vars.get?
  inherited? k :=
    match sight.above.findSome? fun above => above.vars.get? k with
    | some v => some v
    | none => sight.rootVars.get? k

/-- The visitors of glimpses. They can't edit. -/
abbrev GlimpseVisitor (σ N A : Type) {κ : Type} (β : κ → Type) :=
  Visitor σ (Glimpse N β) (Fanout.Request A β)

/-- The visitor of a fan-out walk. -/
def Visitor.fanout (visitor : GlimpseVisitor σ N A β) : Fanout.FanoutVisitor σ N A β :=
  visitor.comap Fanout.Branch.glimpse

/-- The visitor of a sequential walk. -/
def Visitor.sequential (visitor : GlimpseVisitor σ N A β) : Traversal.SequentialVisitor σ N A β :=
  (visitor.asking Fanout.Request.sequential).comap Cursor.glimpse

/-- The visitor of the recursion that a sequential walk is. -/
def Visitor.recursive (visitor : GlimpseVisitor σ N A β) : Traversal.SightVisitor σ N A β :=
  (visitor.asking Fanout.Request.sequential).comap Sight.glimpse

omit [Identified N] [DecidableEq κ] in
/-- What climbing finds is what the facts of the contexts above say. -/
theorem Facts.crumbs_climb (arena : Arena N A β) (n : Nat) (link : Option Link) :
    Facts.crumbs (link.map Link.location) ((arena.climb n link).map fun p => p.2.facts) =
      (arena.climb n link).map fun p => ⟨p.2.node, p.1⟩ := by
  induction n generalizing link with
  | zero => cases link <;> rfl
  | succ n ih =>
    cases link with
    | none => rfl
    | some link =>
      rw [Arena.climb]
      cases arena[link.parent]? with
      | none => rfl
      | some c => exact congrArg _ (ih c.link)

theorem Cursor.glimpse_eq (cursor : Cursor N A β) : cursor.glimpse = cursor.sight.glimpse := by
  rw [Cursor.glimpse, Sight.glimpse, Cursor.sight]
  congr 1
  · exact (Facts.crumbs_climb cursor.arena _ _).symm
  · rw [List.map_map]
    rfl
  · funext k
    rw [Arena.inherited?, List.findSome?_map]
    rfl

omit [Identified N] [DecidableEq κ] in
theorem Program.comap_comap {α U : Type} (f : W → V) (g : U → W) (p : Program V Q α) :
    (p.comap f).comap g = p.comap fun u => f (g u) := by
  induction p with
  | done a => rfl
  | look next ih => exact congrArg _ (funext fun u => ih _)
  | ask q next ih => exact congrArg _ (funext fun r => ih r)

/-- A sequential walk shows its visitor no more than the recursion. -/
theorem Visitor.sequential_eq (visitor : GlimpseVisitor σ N A β) :
    visitor.sequential = (visitor.recursive (N := N)).comap Cursor.sight := by
  have hcomap : ∀ callback : Callback σ (Glimpse N β) (Request N A β) Control,
      callback.comap (Cursor.glimpse : Cursor N A β → Glimpse N β) =
        (callback.comap (Sight.glimpse : Sight N A β → Glimpse N β)).comap Cursor.sight := by
    intro callback
    funext own
    rw [Callback.comap, Callback.comap, Callback.comap, Program.comap_comap,
      funext Cursor.glimpse_eq]
  rw [sequential, recursive, comap, comap, hcomap, hcomap, hcomap]
  rfl

/-! ### Callbacks -/

/-- The frame of a node that is open. -/
def Facts.frame (f : Facts N A β) : Fanout.Frame N β :=
  ⟨f.node, f.location, f.vars⟩

omit [Identified N] [DecidableEq κ] in
theorem crumbsFrom_frames (location : Option Location) (above : List (Facts N A β)) :
    Fanout.crumbsFrom location (above.map Facts.frame) = Facts.crumbs location above := by
  induction above generalizing location with
  | nil => cases location <;> rfl
  | cons f above ih =>
    cases location with
    | none => rfl
    | some location => exact congrArg _ (ih f.location)

namespace Fanout

/-- The depth-first walk over the same nodes. -/
def Plan.depthFirst (plan : Plan N A β) (initial : A) : Traversal.Plan N A β where
  children := plan.children
  initial := initial
  rootVars := plan.rootVars

/-- A branch **mirrors** the facts of a node that is called back for. -/
structure Branch.Mirrors (rootVars : Vars β) (above : List (Facts N A β)) (b : Branch N A β)
    (f : Facts N A β) : Prop where
  node : b.node = f.node
  location : b.location = f.location
  frames : b.frames = above.map Facts.frame
  vars : b.vars = f.vars
  rootVars : b.rootVars = rootVars
  phase : f.phase = some b.phase
  unchanged : f.node = f.first
  intact : f.deleted = false

namespace Branch.Mirrors

variable {rootVars : Vars β} {above : List (Facts N A β)} {b : Branch N A β} {f : Facts N A β}

omit [DecidableEq κ] in
theorem crumbs_eq (h : b.Mirrors rootVars above f) : b.crumbs = Facts.crumbs f.location above := by
  rw [Branch.crumbs, h.frames, h.location, crumbsFrom_frames]

omit [DecidableEq κ] in
theorem place_eq (h : b.Mirrors rootVars above f) :
    b.place = Crumb.place (Facts.crumbs f.location above) := by
  rw [Branch.place, h.crumbs_eq, Crumb.place]

/-- What mirrors looks the same. -/
theorem glimpse_eq (h : b.Mirrors rootVars above f) (below : Option (Children (Facts N A β)))
    (visited : List (Identity N)) :
    Sight.glimpse ⟨f, above, below, rootVars, visited⟩ = b.glimpse := by
  rw [Sight.glimpse, Branch.glimpse, h.crumbs_eq, h.frames, h.node, h.location, h.vars,
    List.map_map]
  congr 1
  · rw [h.phase]
    rfl
  · funext k
    rw [Branch.inherited?, h.frames, h.rootVars, List.findSome?_map]
    rfl

/-- Every request is granted on both sides, and to the same effect. -/
theorem perform {d : Desk N A β} (h : b.Mirrors rootVars above d.here) (crumbs : List (Crumb N))
    (q : Request A β) :
    ((Desk.perform crumbs q.sequential).runWith d).1 = ((Branch.perform q).runWith b).1 ∧
      ((Branch.perform q).runWith b).2.Mirrors rootVars above
        ((Desk.perform crumbs q.sequential).runWith d).2.here := by
  cases q with
  | setVar key value =>
    exact ⟨rfl, h.node, h.location, h.frames, congrArg (·.insert key value) h.vars, h.rootVars,
      h.phase, h.unchanged, h.intact⟩
  | setAccumulate accumulate =>
    exact ⟨rfl, h.node, h.location, h.frames, h.vars, h.rootVars, h.phase, h.unchanged,
      h.intact⟩

end Branch.Mirrors

/-! ### Fan-out walks -/

section Call

variable {b b' : Branch N A β} {callback : Callback σ (Branch N A β) (Request A β) Control}
  {shared : Shared σ N} {own : σ}

/-- What a callback that succeeds comes to. -/
theorem call_of_ok {control : Control}
    (h : callback.runOn (fun b => b) Branch.perform shared.own b = ((.ok control, own), b')) :
    (call b callback).runWith shared = (.ok (control, b'), { shared with own }) := by
  simp only [call, Walk.runWith, h]

/-- What a callback that fails comes to. -/
theorem call_of_error {e : Error}
    (h : callback.runOn (fun b => b) Branch.perform shared.own b = ((.error e, own), b')) :
    (call b callback).runWith shared = (.error (.failed e), { shared with own }) := by
  simp only [call, Walk.runWith, h]

end Call

section Visit

variable {plan : Plan N A β} {visitor : FanoutVisitor σ N A β} {frames : List (Frame N β)}
  {location : Option Location} {accumulate : A} {node : N} {shared : Shared σ N}

/-- Visiting a node that is taken. -/
theorem runWith_visit_taken {limit : Nat}
    (h : shared.visited.contains (identity node) = true) :
    (visit plan visitor (limit + 1) frames location accumulate node).runWith shared =
      (call
          { node, location, frames, rootVars := plan.rootVars, current := accumulate
            phase := .backRef, visited := shared.visited } visitor.backRef >>=
        fun p => finish p.2 p.1).runWith shared := by
  have htake : (take node).runWith shared = (.ok false, shared) := by
    change (if shared.visited.contains (identity node) then _ else _ :
      Walk (Shared σ N) Bool).runWith shared = _
    rw [if_pos h]
    rfl
  rw [visit, Walk.runWith_bind_ok htake]
  rfl

/-- Visiting a node that is free. -/
theorem runWith_visit_free {limit : Nat}
    (h : shared.visited.contains (identity node) = false) :
    (visit plan visitor (limit + 1) frames location accumulate node).runWith shared =
      (call
          { node, location, frames, rootVars := plan.rootVars, current := accumulate
            visited := identity node :: shared.visited } visitor.enter >>= fun p =>
        match p.1 with
        | .abort => pure p.2.handedOn
        | .quit => throw (.failed (.quitInFanout p.2.place))
        | .proceed =>
          ((plan.children node).located.mapM fun q =>
            visit plan visitor limit (⟨node, location, p.2.vars⟩ :: frames) (some q.1) p.2.handedOn
              q.2) >>= fun results => get >>= fun s =>
            call { p.2 with
              current := p.2.handedOn, next := none,
              results := some ((plan.children node).regroup results),
              phase := .leave, visited := s.visited } visitor.leave >>= fun p =>
            finish p.2 p.1).runWith
        { shared with visited := identity node :: shared.visited } := by
  have htake : (take node).runWith shared =
      (.ok true, { shared with visited := identity node :: shared.visited }) := by
    change (if shared.visited.contains (identity node) then _ else _ :
      Walk (Shared σ N) Bool).runWith shared = _
    rw [if_neg (by simpa using h)]
    rfl
  rw [visit, Walk.runWith_bind_ok htake]
  rfl

end Visit

end Fanout

namespace Traversal

open Fanout (Branch Shared)

section Parts

variable {α : Type} (course : Course σ N A)

omit [DecidableEq κ]

theorem Descent.runWith_modify_bind (g : Course σ N A → Course σ N A)
    (f : PUnit → Descent σ N A α) : (modify g >>= f).runWith course = (f ⟨⟩).runWith (g course) :=
  rfl

theorem Descent.runWith_get_bind (f : Course σ N A → Descent σ N A α) :
    (get >>= f).runWith course = (f course).runWith course :=
  rfl

end Parts

/-- A part of a fan-out walk **ends like** a part of a recursion: both go on, in ways that are
related, or both fail with the same error, or both are cut off. They leave the same state of the
visitor. -/
def EndsLike {α γ : Type} (R : α × Course σ N A → γ × Shared σ N → Prop) :
    Except Stop α × Course σ N A → Except Interrupt γ × Shared σ N → Prop
  | (.ok a, course), (.ok c, shared) => shared.own = course.own ∧ R (a, course) (c, shared)
  | (.error (.failed e), course), (.error (.failed e'), shared) =>
    shared.own = course.own ∧ e' = e
  | (.error .exhausted, course), (.error .exhausted, shared) => shared.own = course.own
  | _, _ => False

omit [DecidableEq κ] in
/-- What follows on related ways ends like what follows. -/
theorem EndsLike.bind {α γ α' γ' : Type} {R : α × Course σ N A → γ × Shared σ N → Prop}
    {R' : α' × Course σ N A → γ' × Shared σ N → Prop} {x : Descent σ N A α}
    {y : Walk (Shared σ N) γ} {f : α → Descent σ N A α'} {g : γ → Walk (Shared σ N) γ'}
    {course : Course σ N A} {shared : Shared σ N}
    (h : EndsLike R (x.runWith course) (y.runWith shared))
    (hnext : ∀ a course c shared, shared.own = course.own → R (a, course) (c, shared) →
      EndsLike R' ((f a).runWith course) ((g c).runWith shared)) :
    EndsLike R' ((x >>= f).runWith course) ((y >>= g).runWith shared) := by
  cases hx : x.runWith course with
  | mk out course' =>
    cases hy : y.runWith shared with
    | mk out' shared' =>
      rw [hx, hy] at h
      match out, out', h with
      | .ok a, .ok c, ⟨hown, hR⟩ =>
        rw [Descent.runWith_bind_ok hx, Walk.runWith_bind_ok hy]
        exact hnext a course' c shared' hown hR
      | .error (.failed e), .error (.failed e'), h =>
        rw [Descent.runWith_bind_error hx, Walk.runWith_bind_error hy]
        exact h
      | .error .exhausted, .error .exhausted, h =>
        rw [Descent.runWith_bind_error hx, Walk.runWith_bind_error hy]
        exact h

/-- Both have visited the same nodes. -/
def SameVisited {α γ : Type} (p : α × Course σ N A) (q : γ × Shared σ N) : Prop :=
  q.2.visited = p.2.visited

omit [DecidableEq κ] in
theorem EndsLike.mapM {ι α γ : Type} {f : ι → Descent σ N A α} {g : ι → Walk (Shared σ N) γ}
    (h : ∀ i course shared, shared.own = course.own → shared.visited = course.visited →
      EndsLike SameVisited ((f i).runWith course) ((g i).runWith shared)) (list : List ι)
    (course : Course σ N A) (shared : Shared σ N) (hown : shared.own = course.own)
    (hvisited : shared.visited = course.visited) :
    EndsLike SameVisited ((list.mapM f).runWith course) ((list.mapM g).runWith shared) := by
  induction list generalizing course shared with
  | nil => exact ⟨hown, hvisited⟩
  | cons i list ih =>
    rw [List.mapM_cons, List.mapM_cons]
    refine (h i course shared hown hvisited).bind fun a course c shared hown hvisited => ?_
    refine (ih course shared hown hvisited).bind fun as course cs shared hown hvisited => ?_
    exact ⟨hown, hvisited⟩

section Callback

variable {visitor : GlimpseVisitor σ N A β} {phase : Phase} {rootVars : Vars β}
  {above : List (Facts N A β)} {below : Option (Children (Facts N A β))} {met here : Facts N A β}
  {b : Branch N A β} {control : Control} {course : Course σ N A} {shared : Shared σ N}

theorem runOn_fanout (own : σ) (b : Branch N A β) :
    (visitor.fanout.on phase).runOn (fun b => b) Branch.perform own b =
      Program.run Branch.glimpse Branch.perform (visitor.on phase own) b := by
  cases phase <;> exact Program.run_comap _ _ _ _ _

theorem runOn_recursive (view : Desk N A β → Sight N A β) (crumbs : List (Crumb N)) (own : σ)
    (d : Desk N A β) :
    ((visitor.recursive (N := N)).on phase).runOn view (Desk.perform crumbs) own d =
      Program.run (fun d => (view d).glimpse) (fun q => Desk.perform crumbs q.sequential)
        (visitor.on phase own) d := by
  cases phase <;>
    exact (Program.run_comap _ _ _ _ _).trans (Program.run_asking _ _ _ _ _)

/-- What is left by two callbacks that end alike. -/
structure CalledAlike (rootVars : Vars β) (above : List (Facts N A β)) (met : Facts N A β)
    (course : Course σ N A) (shared : Shared σ N) (p : (Control × Facts N A β) × Course σ N A)
    (q : (Control × Branch N A β) × Shared σ N) : Prop where
  control : q.1.1 = p.1.1
  noQuit : p.1.1 ≠ .quit
  mirrors : q.1.2.Mirrors rootVars above p.1.2
  first : p.1.2.first = met.first
  location : p.1.2.location = met.location
  visited : q.2.visited = shared.visited
  visited' : p.2.visited = course.visited

/-- **Callbacks on what looks alike end alike.** -/
theorem consult_endsLike (hquit : visitor.NeverQuits) (phase : Phase) (shared : Shared σ N)
    (hown : shared.own = course.own) (hb : b.Mirrors rootVars above
      { met with current := course.accumulate, next := none, phase := some phase }) :
    EndsLike (CalledAlike rootVars above met course shared)
      ((consult rootVars visitor.recursive phase above below met).runWith course)
      ((Fanout.call b (visitor.fanout.on phase)).runWith shared) := by
  let desk : Desk N A β :=
    { here := { met with current := course.accumulate, next := none, phase := some phase }
      edits := course.edits }
  let view : Desk N A β → Sight N A β := fun d => ⟨d.here, above, below, rootVars, course.visited⟩
  let crumbs := Facts.crumbs met.location above
  have hfanout : (visitor.fanout.on phase).runOn (fun b => b) Branch.perform shared.own b = _ :=
    runOn_fanout shared.own b
  have hrecursive : (visitor.recursive.on phase).runOn view (Desk.perform crumbs) course.own desk =
      _ := runOn_recursive view crumbs course.own desk
  have hends := (hquit phase course.own).run (fun d => (view d).glimpse)
    (fun q => Desk.perform crumbs q.sequential) desk
  obtain ⟨hout, hmirrors⟩ := Program.run_related
    (R := fun (d : Desk N A β) (b : Branch N A β) => b.Mirrors rootVars above d.here)
    (fun d b h => h.glimpse_eq below course.visited) (fun q d b h => h.perform crumbs q)
    (visitor.on phase course.own) (s := desk) (t := b) hb
  rw [hown] at hfanout
  rw [← hrecursive] at hends
  rw [← hrecursive, ← hfanout] at hout hmirrors
  cases hrec : (visitor.recursive.on phase).runOn view (Desk.perform crumbs) course.own desk with
  | mk out d =>
    cases hfan : (visitor.fanout.on phase).runOn (fun b => b) Branch.perform course.own b with
    | mk out' b' =>
      rw [hrec] at hends
      rw [hrec, hfan] at hout hmirrors
      rw [← hown] at hfan
      obtain rfl : out = out' := hout
      obtain ⟨outcome, own⟩ := out
      cases outcome with
      | error e =>
        rw [consult_of_error hrec, Fanout.call_of_error hfan]
        exact ⟨rfl, rfl⟩
      | ok control =>
        obtain ⟨-, hfirst, hlocation⟩ := consult_keeps (consult_of_ok hrec)
        rw [consult_of_ok hrec, Fanout.call_of_ok hfan]
        exact ⟨rfl, rfl, fun h => hends (congrArg Except.ok h), hmirrors, hfirst, hlocation, rfl,
          rfl⟩

omit [DecidableEq κ] in
/-- **Callbacks that end a visit** end alike. -/
theorem called_endsLike {p : (Control × Facts N A β) × Course σ N A}
    {q : (Control × Branch N A β) × Shared σ N}
    (h : CalledAlike rootVars above met course shared p q) (hown : q.2.own = p.2.own)
    (hvisited : shared.visited = course.visited) :
    EndsLike SameVisited ((heed above p.1.2 p.1.1).runWith p.2)
      ((Fanout.finish q.1.2 q.1.1).runWith q.2) := by
  obtain ⟨⟨control, here⟩, course'⟩ := p
  obtain ⟨⟨control', b⟩, shared'⟩ := q
  obtain ⟨rfl, hquit, hmirrors, -, -, hsame, hsame'⟩ := h
  cases control' with
  | proceed => exact ⟨hown, hsame.trans (hvisited.trans hsame'.symm)⟩
  | quit => exact absurd rfl hquit
  | abort => exact ⟨hown, congrArg Error.abortOutsideEnter hmirrors.place_eq⟩

end Callback

/-! ### Visits -/

section Visit

variable {plan : Fanout.Plan N A β} {initial : A} {visitor : GlimpseVisitor σ N A β}

/-- Visiting a node for the first time calls back for it, and goes on. -/
theorem runWith_visit_enter {plan : Plan N A β} {visitor : SightVisitor σ N A β}
    {above : List (Facts N A β)} {met : Facts N A β} {course : Course σ N A} {levels : Nat}
    (h : course.visited.contains (identity met.first) = false) :
    (visit plan visitor (levels + 1) above met).runWith course =
      (consult plan.rootVars visitor .enter above none met >>= fun p =>
        modify (fun course => { course with visited := identity met.first :: course.visited }) >>=
          fun _ =>
        match p.1 with
        | .quit => throw .quit
        | .abort => pure p.2
        | .proceed => get >>= fun course =>
          (if p.2.deleted then .empty else plan.children p.2.node).located.mapM (fun q =>
            visit plan visitor levels (p.2 :: above)
              (.discover q.2 (some q.1) course.accumulate)) >>= fun below =>
          consult plan.rootVars visitor .leave above
            (some ((if p.2.deleted then .empty else plan.children p.2.node).regroup below)) p.2 >>=
          fun p => heed above p.2 p.1).runWith course := by
  have hfree : ¬ course.visited.contains (identity met.first) = true := by simpa using h
  rw [visit]
  change (if course.visited.contains (identity met.first) then _ else _ :
    Descent σ N A (Facts N A β)).runWith course = _
  exact congrArg (fun d : Descent σ N A (Facts N A β) => d.runWith course) (if_neg hfree)

/-- **Visits end alike**, whatever the accumulates are. -/
theorem visit_endsLike (hquit : visitor.NeverQuits) (levels : Nat) (above : List (Facts N A β))
    (location : Option Location) (accumulate accumulate' : A) (node : N) {course : Course σ N A}
    {shared : Shared σ N} (hown : shared.own = course.own)
    (hvisited : shared.visited = course.visited) :
    EndsLike SameVisited
      ((visit (plan.depthFirst initial) visitor.recursive levels above
        (.discover node location accumulate)).runWith course)
      ((Fanout.visit plan visitor.fanout levels (above.map Facts.frame) location accumulate'
        node).runWith shared) := by
  induction levels generalizing above location accumulate accumulate' node course shared with
  | zero => exact hown
  | succ levels ih =>
    cases hmet : course.visited.contains (identity node) with
    | true =>
      rw [runWith_visit_again hmet, Fanout.runWith_visit_taken (hvisited ▸ hmet)]
      refine (consult_endsLike hquit .backRef shared hown ?_).bind
        fun p course' q shared' hown hcalled => called_endsLike hcalled hown hvisited
      exact ⟨rfl, rfl, rfl, rfl, rfl, rfl, rfl, rfl⟩
    | false =>
      rw [runWith_visit_enter hmet, Fanout.runWith_visit_free (hvisited ▸ hmet)]
      refine (consult_endsLike hquit .enter
        { shared with visited := identity node :: shared.visited } hown ?_).bind
          fun p course₁ q shared₁ hown₁ hcalled => ?_
      · exact ⟨rfl, rfl, rfl, rfl, rfl, rfl, rfl, rfl⟩
      -- the node has been taken on one side, and counts as visited from here on the other
      obtain ⟨⟨control, here⟩, ⟨control', b⟩⟩ := p, q
      obtain ⟨rfl, hnoQuit, hmirrors, hfirst, hlocation, hsame, hsame'⟩ := hcalled
      have hnode : here.node = node := hmirrors.unchanged.trans hfirst
      have hvisited₁ : shared₁.visited = identity node :: course₁.visited := by
        rw [hsame, hsame', hvisited]
      cases control' with
      | abort => exact ⟨hown₁, hvisited₁⟩
      | quit => exact absurd rfl hnoQuit
      | proceed =>
        have hframe : (⟨node, location, b.vars⟩ : Fanout.Frame N β) = here.frame := by
          rw [Facts.frame, hnode, show here.location = location from hlocation, hmirrors.vars]
        have hchildren : (if here.deleted then .empty else
            (plan.depthFirst initial).children here.node : Children N) = plan.children node := by
          rw [hmirrors.intact, if_neg Bool.false_ne_true, hnode]
          rfl
        dsimp only
        rw [hframe, hchildren, Descent.runWith_modify_bind, Descent.runWith_get_bind]
        refine (EndsLike.mapM (fun i course shared hown hvisited =>
          ih (here :: above) (some i.1) _ _ i.2 hown hvisited) _
            { course₁ with visited := identity node :: course₁.visited } shared₁ hown₁
            hvisited₁).bind fun below course₂ results shared₂ hown₂ hvisited₂ => ?_
        rw [Walk.runWith_get_bind]
        refine (consult_endsLike hquit .leave shared₂ hown₂ ?_).bind
          fun p course₃ q shared₃ hown hcalled => called_endsLike hcalled hown hvisited₂
        exact ⟨hmirrors.node, hmirrors.location, hmirrors.frames, hmirrors.vars, hmirrors.rootVars,
          rfl, hmirrors.unchanged, hmirrors.intact⟩

end Visit

/-! ### Whole walks -/

/-- Two walks **come to the same**: they leave the same state, and both succeed or both end for the
same reason. -/
def SameEnd {α γ : Type} (x : Except Interrupt α × σ) (y : Except Interrupt γ × σ) : Prop :=
  x.2 = y.2 ∧ x.1.map (fun _ => ()) = y.1.map fun _ => ()

omit [DecidableEq κ] in
/-- Parts that end alike bring their walks to the same end. -/
theorem EndsLike.sameEnd {α γ : Type} {R : α × Course σ N A → γ × Shared σ N → Prop}
    {x : Except Stop α × Course σ N A} {y : Except Interrupt γ × Shared σ N}
    (h : EndsLike R x y) : SameEnd (conclude x) (y.1, y.2.own) := by
  obtain ⟨out, course⟩ := x
  obtain ⟨out', shared⟩ := y
  cases out with
  | ok a =>
    cases out' with
    | ok c => exact ⟨h.1.symm, rfl⟩
    | error i => exact h.elim
  | error stop =>
    cases stop with
    | quit => exact h.elim
    | failed e =>
      cases out' with
      | ok c => exact h.elim
      | error i =>
        cases i with
        | failed e' =>
          obtain ⟨hown, rfl⟩ := h
          exact ⟨hown.symm, rfl⟩
        | exhausted => exact h.elim
    | exhausted =>
      cases out' with
      | ok c => exact h.elim
      | error i =>
        cases i with
        | failed e' => exact h.elim
        | exhausted => exact ⟨h.symm, rfl⟩

section Walk

variable {plan : Fanout.Plan N A β} {visitor : GlimpseVisitor σ N A β} {nodes roots : List N}

/-- The recursion comes to the same as the fan-out walk. -/
theorem descend_sameEnd (hquit : visitor.NeverQuits) (initial : A) (levels : Nat) (roots : List N)
    (own : σ) :
    SameEnd ((descend (plan.depthFirst initial) visitor.recursive levels roots).runWith own)
      ((Fanout.traverse plan visitor.fanout levels roots).runWith own) := by
  have hvisits : EndsLike SameVisited
      ((visitRoots (plan.depthFirst initial) visitor.recursive levels roots).runWith
        { own, accumulate := initial, edits := none })
      ((roots.mapM (Fanout.visit plan visitor.fanout levels [] none plan.initial)).runWith
        { visited := [], own }) :=
    EndsLike.mapM (fun root course shared hown hvisited =>
      visit_endsLike hquit levels [] none initial plan.initial root hown hvisited) roots _ _ rfl rfl
  exact hvisits.sameEnd

/-- A visitor of glimpses brings no nodes with it. -/
theorem recursive_staysIn (visitor : GlimpseVisitor σ N A β) (inside : N → Prop) :
    (visitor.recursive (N := N)).Requests (Request.StaysIn inside) := by
  refine Visitor.Requests.comap (fun phase own => ?_) Sight.glimpse
  have hasks : ∀ p : Program (Glimpse N β) (Fanout.Request A β) (Except Error Control × σ),
      (p.asking Fanout.Request.sequential).Requests
        (Request.StaysIn inside : Request N A β → Prop) := fun p =>
    Program.Requests.asking ((Program.Requests.of_true p).imp fun q _ => by cases q <;> trivial)
  cases phase <;> exact hasks _

variable (hclosed : ∀ n ∈ nodes, ∀ m ∈ (plan.children n).flatten, m ∈ nodes)
  (hroots : ∀ root ∈ roots, root ∈ nodes)

include hclosed hroots

/-- Over a finite graph both walks end, if their limits let them. -/
theorem traverse_sameEnd (hquit : visitor.NeverQuits) (initial : A) (own : σ) :
    ∃ L, ∀ limit levels, L ≤ limit → L ≤ levels →
      SameEnd ((traverse (plan.depthFirst initial) visitor.sequential limit roots).runWith own)
        ((Fanout.traverse plan visitor.fanout levels roots).runWith own) ∧
      ((Fanout.traverse plan visitor.fanout levels roots).runWith own).1 ≠ .error .exhausted := by
  have hends : ∀ levels, nodes.length < levels →
      ((descend (plan.depthFirst initial) visitor.recursive levels roots).runWith own).1 ≠
        .error .exhausted := fun levels hlevels =>
    descend_total_of_lt hclosed
      (fun n (hn : n ∈ nodes) => (List.mem_map_of_mem hn : identity n ∈ nodes.map identity))
      (recursive_staysIn visitor _) (by rwa [List.length_map]) hroots own
  have hwalk : ∀ levels, nodes.length < levels → ∃ L, ∀ limit, L ≤ limit →
      (traverse (plan.depthFirst initial) visitor.sequential limit roots).runWith own =
        (descend (plan.depthFirst initial) visitor.recursive levels roots).runWith own := by
    intro levels hlevels
    rw [visitor.sequential_eq]
    exact traverse_of_descend rfl _ levels roots own (hends levels hlevels)
  obtain ⟨L, hL⟩ := hwalk (nodes.length + 1) (Nat.lt_succ_self _)
  refine ⟨max L (nodes.length + 1), fun limit levels hlimit hlevels => ?_⟩
  have hmore : nodes.length < levels := Nat.lt_of_lt_of_le
    (Nat.lt_of_lt_of_le (Nat.lt_succ_self _) (Nat.le_max_right _ _)) hlevels
  -- more levels make no difference, as both depths are that of one walk
  have hlevel :
      (descend (plan.depthFirst initial) visitor.recursive (nodes.length + 1) roots).runWith own =
        (descend (plan.depthFirst initial) visitor.recursive levels roots).runWith own := by
    obtain ⟨M, hM⟩ := hwalk levels hmore
    rw [← hL (max L M) (Nat.le_max_left _ _), hM (max L M) (Nat.le_max_right _ _)]
  have hsame : SameEnd _ ((Fanout.traverse plan visitor.fanout levels roots).runWith own) :=
    descend_sameEnd hquit initial levels roots own
  refine ⟨?_, fun hexhausted => hends levels hmore ?_⟩
  · rw [hL limit (Nat.le_trans (Nat.le_max_left _ _) hlimit), hlevel]
    exact hsame
  · have hresult := hsame.2
    rw [hexhausted] at hresult
    revert hresult
    cases ((descend (plan.depthFirst initial) visitor.recursive levels roots).runWith own).1 with
    | ok a => exact nofun
    | error i => exact fun h => congrArg _ (Except.error.inj h)

/-- **A fan-out walk visits like a depth-first walk.** Over a finite graph, which may have cycles
and shared nodes, a visitor of glimpses that never quits comes to the same in both, and so does its
log: the callbacks are the same, made in the same order, and see the same, and either both walks
succeed or both fail with the same error. -/
theorem traverse_fanout (hquit : visitor.NeverQuits) (initial : A) (own : σ) :
    ∃ L, ∀ limit levels, L ≤ limit → L ≤ levels →
      (SameEnd ((traverse (plan.depthFirst initial) visitor.sequential limit roots).runWith own)
          ((Fanout.traverse plan visitor.fanout levels roots).runWith own) ∧
        ((Fanout.traverse plan visitor.fanout levels roots).runWith own).1 ≠ .error .exhausted) ∧
      SameEnd
          ((traverse (plan.depthFirst initial) visitor.logging.sequential limit roots).runWith
            (own, []))
          ((Fanout.traverse plan visitor.logging.fanout levels roots).runWith (own, [])) ∧
        ((Fanout.traverse plan visitor.logging.fanout levels roots).runWith (own, [])).1 ≠
          .error .exhausted := by
  obtain ⟨L, hL⟩ := traverse_sameEnd hclosed hroots hquit initial own
  obtain ⟨M, hM⟩ := traverse_sameEnd hclosed hroots hquit.logging initial (own, [])
  refine ⟨max L M, fun limit levels hlimit hlevels =>
    ⟨hL limit levels ?_ ?_, hM limit levels ?_ ?_⟩⟩
  · exact Nat.le_trans (Nat.le_max_left _ _) hlimit
  · exact Nat.le_trans (Nat.le_max_left _ _) hlevels
  · exact Nat.le_trans (Nat.le_max_right _ _) hlimit
  · exact Nat.le_trans (Nat.le_max_right _ _) hlevels

end Walk

/-! ### A graph with a cycle -/

open Arborist.Graph

/-- The fan-out walk over the ring. -/
def ringFanout : Fanout.Plan Node Nat (fun _ : Unit => Nat) where
  children := ringTable.children
  initial := 0

theorem ringFanout_closed (n : Node) (hn : n ∈ [Node.listed "a", .listed "b", .listed "c"]) :
    ∀ m ∈ (ringFanout.children n).flatten, m ∈ [Node.listed "a", .listed "b", .listed "c"] :=
  ringPlan_closed n hn

/-- A visitor that keeps count of the levels in a variable, lists what it counted, passes over the
children of `c`, and breaks a rule when it meets a node again two levels below the root. -/
def levelVisitor : GlimpseVisitor (List Nat) Node Nat (fun _ : Unit => Nat) where
  enter := fun own => .look fun glimpse =>
    .ask (.setVar () ((glimpse.inherited? ()).getD 0 + 1)) fun _ => .look fun glimpse =>
      .done (.ok (if glimpse.node.label = "c" then .abort else .proceed),
        own ++ [(glimpse.var? ()).getD 0])
  backRef := fun own => .look fun glimpse =>
    .done (.ok (if glimpse.crumbs.length = 2 then .abort else .proceed), own)

theorem levelVisitor_neverQuits : levelVisitor.NeverQuits := by
  intro phase own
  cases phase with
  | enter =>
    intro glimpse _ glimpse'
    show Except.ok (if glimpse'.node.label = "c" then Control.abort else .proceed) ≠ .ok .quit
    split <;> exact nofun
  | leave => exact nofun
  | backRef =>
    intro glimpse
    show Except.ok (if glimpse.crumbs.length = 2 then Control.abort else .proceed) ≠ .ok .quit
    split <;> exact nofun

/-- Both walks over the ring fail when they meet `a` again below `b`. -/
theorem traverse_fanout_ring :
    (∃ L, ∀ limit levels, L ≤ limit → L ≤ levels →
      SameEnd ((traverse (ringFanout.depthFirst 7) levelVisitor.sequential limit
          [.listed "a"]).runWith [])
        ((Fanout.traverse ringFanout levelVisitor.fanout levels [.listed "a"]).runWith []) ∧
      SameEnd ((traverse (ringFanout.depthFirst 7) levelVisitor.logging.sequential limit
          [.listed "a"]).runWith ([], []))
        ((Fanout.traverse ringFanout levelVisitor.logging.fanout levels
          [.listed "a"]).runWith ([], []))) ∧
    (Fanout.traverse ringFanout levelVisitor.fanout 4 [.listed "a"]).runWith [] =
      (.error (.failed (.abortOutsideEnter "at x[0].[0]")), [1, 2]) := by
  have hroots : ∀ root ∈ [Node.listed "a"], root ∈ [Node.listed "a", .listed "b", .listed "c"] := by
    simp
  obtain ⟨L, hL⟩ := traverse_fanout ringFanout_closed hroots levelVisitor_neverQuits 7 []
  refine ⟨⟨L, fun limit levels hlimit hlevels => ?_⟩, ?_⟩
  · obtain ⟨⟨hsame, -⟩, hlogs, -⟩ := hL limit levels hlimit hlevels
    exact ⟨hsame, hlogs⟩
  · rfl

end Traversal

end Arborist
