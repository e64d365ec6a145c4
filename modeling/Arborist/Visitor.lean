import Arborist.Adapter

/-!
# Visitors

A walk calls back into a **visitor** when it enters a node, when it leaves it, and when it meets
again a node that it has already entered. A callback is a `Program`: it looks at the context it is
called with and asks for changes of that context, and it can do nothing else to the walk. What a
look shows (`V`) and which requests there are (`Q`) depends on the kind of walk.

A callback also has a state `σ` of its own, which it shares with the adapter of the walk, and it may
fail. The state survives the failure.

* `Program.run_bind`: running a sequence of programs runs one after the other.
-/

namespace Arborist

/-- The callback with which a node is visited. -/
inductive Phase where
  | enter
  | leave
  | backRef
deriving DecidableEq

/-- What a callback tells the walk to do next. -/
inductive Control where
  /-- Go on as usual. -/
  | proceed
  /-- Pass over the children of the node that is being entered. -/
  | abort
  /-- Stop without visiting anything else. -/
  | quit
deriving DecidableEq

/-! ### Programs -/

/-- A **program** that looks at things of type `V` and makes requests of type `Q`, each of which is
granted or refused with an error. -/
inductive Program (V Q α : Type) where
  /-- The program is over. -/
  | done (result : α)
  /-- Look, then go on. -/
  | look (next : V → Program V Q α)
  /-- Make a request, then go on. -/
  | ask (request : Q) (next : Except Error Unit → Program V Q α)

namespace Program

variable {V Q S α γ : Type}

/-- Runs a second program on the result of the first. -/
def bind : Program V Q α → (α → Program V Q γ) → Program V Q γ
  | .done a, f => f a
  | .look next, f => .look fun v => (next v).bind f
  | .ask q next, f => .ask q fun r => (next r).bind f

instance : Monad (Program V Q) where
  pure := .done
  bind := Program.bind

/-- **Runs** a program on a state that it looks at through `view` and that `perform` changes. -/
def run (view : S → V) (perform : Q → Attempt S Unit) : Program V Q α → S → α × S
  | .done a, s => (a, s)
  | .look next, s => (next (view s)).run view perform s
  | .ask q next, s =>
    let (r, s) := (perform q).runWith s
    (next r).run view perform s

/-- Running a sequence runs one part after the other. -/
@[simp] theorem run_bind (view : S → V) (perform : Q → Attempt S Unit) (p : Program V Q α)
    (f : α → Program V Q γ) (s : S) :
    (p.bind f).run view perform s =
      (f (p.run view perform s).1).run view perform (p.run view perform s).2 := by
  induction p generalizing s with
  | done a => rfl
  | look next ih => exact ih (view s) s
  | ask q next ih => exact ih _ _

end Program

/-! ### Callbacks -/

/-- A **callback** is a program with a state of its own that may fail. -/
abbrev Callback (σ V Q : Type) := ExceptT Error (StateT σ (Program V Q))

namespace Callback

variable {σ V Q S α : Type}

/-- Looks at the context. -/
def view : Callback σ V Q V :=
  fun s => .look fun v => .done (.ok v, s)

/-- Makes a request, and fails if it is refused. -/
def request (q : Q) : Callback σ V Q Unit :=
  fun s => .ask q fun r => .done (r, s)

/-- An attempt on the callback's own state. -/
def ofAttempt (x : Attempt σ α) : Callback σ V Q α :=
  fun s => .done (x.runWith s)

/-- Runs a callback: its outcome, its own state and the state it worked on. -/
def runOn (c : Callback σ V Q α) (view : S → V) (perform : Q → Attempt S Unit) (own : σ) (s : S) :
    (Except Error α × σ) × S :=
  Program.run view perform (c own) s

end Callback

/-- The three callbacks of a walk. Those that are not given go on as usual. -/
structure Visitor (σ V Q : Type) where
  enter : Callback σ V Q Control := pure .proceed
  leave : Callback σ V Q Control := pure .proceed
  backRef : Callback σ V Q Control := pure .proceed

/-! ### Walks -/

namespace Error

/-- The children of a node were to be passed over after they had been visited. -/
def abortOutsideEnter (place : String) : Error :=
  violationAt place "Abort can only be returned when entering a node"

end Error

/-- Why a walk ended without a result. -/
inductive Interrupt where
  /-- A callback failed, or broke a rule. -/
  | failed (e : Error)
  /-- The limit on the length of the walk was reached. -/
  | exhausted

/-- A computation with a state and a limit. -/
abbrev Walk (σ : Type) := ExceptT Interrupt (StateM σ)

/-- The outcome and the state after a walk. -/
def Walk.runWith {σ α : Type} (x : Walk σ α) (s : σ) : Except Interrupt α × σ :=
  x s

/-- An attempt as a part of a walk. -/
def Walk.ofAttempt {σ α : Type} (x : Attempt σ α) : Walk σ α :=
  fun s =>
    match x.runWith s with
    | (.ok a, s) => (.ok a, s)
    | (.error e, s) => (.error (.failed e), s)

section Walk

variable {σ α γ : Type}

@[simp] theorem Walk.runWith_pure (a : α) (s : σ) : Walk.runWith (pure a) s = (.ok a, s) := rfl

/-- What follows a walk runs on the state it left. -/
theorem Walk.runWith_bind_ok {x : Walk σ α} {s t : σ} {a : α} (h : x.runWith s = (.ok a, t))
    (f : α → Walk σ γ) : (x >>= f).runWith s = (f a).runWith t := by
  have hx : x s = (.ok a, t) := h
  show ExceptT.bindCont f (x s).1 (x s).2 = f a t
  rw [hx]
  rfl

/-- What follows an interrupted walk does not run. -/
theorem Walk.runWith_bind_error {x : Walk σ α} {s t : σ} {i : Interrupt}
    (h : x.runWith s = (.error i, t)) (f : α → Walk σ γ) :
    (x >>= f).runWith s = (.error i, t) := by
  have hx : x s = (.error i, t) := h
  show ExceptT.bindCont f (x s).1 (x s).2 = (.error i, t)
  rw [hx]
  rfl

theorem Walk.runWith_ofAttempt_ok {x : Attempt σ α} {s t : σ} {a : α}
    (h : x.runWith s = (.ok a, t)) : (Walk.ofAttempt x).runWith s = (.ok a, t) := by
  rw [Walk.runWith, Walk.ofAttempt, h]

theorem Walk.runWith_ofAttempt_error {x : Attempt σ α} {s t : σ} {e : Error}
    (h : x.runWith s = (.error e, t)) :
    (Walk.ofAttempt x).runWith s = (.error (.failed e), t) := by
  rw [Walk.runWith, Walk.ofAttempt, h]

end Walk

end Arborist
