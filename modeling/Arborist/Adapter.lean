import Arborist.Error
import Arborist.Children

/-!
# Adapters

An **adapter** tells the editing operations what the children of a node are and how to build a
node of the same kind from other children. Rebuilding may fail, and it may draw on a state, from
which new identities are taken; the state survives a failure.
-/

namespace Arborist

/-- A computation that threads a state and may fail. The state is kept when it fails. -/
abbrev Attempt (σ : Type) := ExceptT Error (StateM σ)

/-- The outcome and the state after an attempt. -/
def Attempt.runWith {σ α : Type} (x : Attempt σ α) (s : σ) : Except Error α × σ :=
  x s

/-- An attempt that leaves the state alone. -/
def Attempt.ofExcept {σ α : Type} : Except Error α → Attempt σ α
  | .ok a => pure a
  | .error e => throw e

section Attempt

variable {σ α γ : Type}

@[simp] theorem Attempt.runWith_pure (a : α) (s : σ) :
    Attempt.runWith (pure a) s = (.ok a, s) := rfl

@[simp] theorem Attempt.runWith_throw (e : Error) (s : σ) :
    Attempt.runWith (throw e : Attempt σ α) s = (.error e, s) := rfl

/-- What follows a success runs on the state it left. -/
theorem Attempt.runWith_bind_ok {x : Attempt σ α} {s t : σ} {a : α}
    (h : x.runWith s = (.ok a, t)) (f : α → Attempt σ γ) :
    (x >>= f).runWith s = (f a).runWith t := by
  have hx : x s = (.ok a, t) := h
  show ExceptT.bindCont f (x s).1 (x s).2 = f a t
  rw [hx]
  rfl

/-- What follows a failure does not run. -/
theorem Attempt.runWith_bind_error {x : Attempt σ α} {s t : σ} {e : Error}
    (h : x.runWith s = (.error e, t)) (f : α → Attempt σ γ) :
    (x >>= f).runWith s = (.error e, t) := by
  have hx : x s = (.error e, t) := h
  show ExceptT.bindCont f (x s).1 (x s).2 = (.error e, t)
  rw [hx]
  rfl

/-- A success of two parts is a success of each. -/
theorem Attempt.exists_of_bind_ok {x : Attempt σ α} {f : α → Attempt σ γ} {s t : σ} {b : γ}
    (h : (x >>= f).runWith s = (.ok b, t)) :
    ∃ a s', x.runWith s = (.ok a, s') ∧ (f a).runWith s' = (.ok b, t) := by
  cases hx : x.runWith s with
  | mk r s' =>
    cases r with
    | error e =>
      rw [runWith_bind_error hx] at h
      cases h
    | ok a =>
      rw [runWith_bind_ok hx] at h
      exact ⟨a, s', rfl, h⟩

/-- A failure of two parts is a failure of **one** of them. -/
theorem Attempt.cases_of_bind_error {x : Attempt σ α} {f : α → Attempt σ γ} {s t : σ}
    {e : Error} (h : (x >>= f).runWith s = (.error e, t)) :
    x.runWith s = (.error e, t) ∨
      ∃ a s', x.runWith s = (.ok a, s') ∧ (f a).runWith s' = (.error e, t) := by
  cases hx : x.runWith s with
  | mk r s' =>
    cases r with
    | error e' =>
      rw [runWith_bind_error hx] at h
      cases h
      exact .inl rfl
    | ok a =>
      rw [runWith_bind_ok hx] at h
      exact .inr ⟨a, s', rfl, h⟩

end Attempt

/-- How to take nodes apart and build them anew. -/
structure Adapter (σ N : Type) where
  /-- The children of a node. -/
  children : N → Children N
  /-- A node of the same kind with the children under the given roles replaced. Roles that are not
  given keep the children they have. -/
  rebuild : N → Children N → Attempt σ N

end Arborist
