/-!
# Typed variables

`Vars β` stores at most one value for each key `k`, and the value stored under `k` has the type
`β k`. Walks keep such a store on every context, so that a lookup is typed by its key.
-/

namespace Arborist

/-- A store of values typed by their keys. -/
structure Vars {κ : Type} (β : κ → Type) where
  entries : List ((k : κ) × β k)

namespace Vars

variable {κ : Type} {β : κ → Type}

/-- No variables. -/
def empty : Vars β := ⟨[]⟩

instance : EmptyCollection (Vars β) := ⟨empty⟩

instance : Inhabited (Vars β) := ⟨empty⟩

/-- The number of variables. -/
def size (vs : Vars β) : Nat :=
  vs.entries.length

/-- Whether there are no variables. -/
def isEmpty (vs : Vars β) : Bool :=
  vs.entries.isEmpty

/-- A one-line summary of a store of the given name: how many variables it has. -/
def summary (vs : Vars β) (name : String) : String :=
  name ++ " \x7b len: " ++ toString vs.size ++ " \x7d"

variable [DecidableEq κ]

/-- The value under `k` in a list of entries. -/
def lookup (k : κ) : List ((k : κ) × β k) → Option (β k)
  | [] => none
  | ⟨j, v⟩ :: rest => if h : j = k then some (h ▸ v) else lookup k rest

/-- Replaces the entry under `k`, or adds one at the end. -/
def insertEntry (k : κ) (v : β k) : List ((k : κ) × β k) → List ((k : κ) × β k)
  | [] => [⟨k, v⟩]
  | e :: rest => if e.1 = k then ⟨k, v⟩ :: rest else e :: insertEntry k v rest

/-- The value stored under `k`. -/
def get? (vs : Vars β) (k : κ) : Option (β k) :=
  lookup k vs.entries

/-- Whether a value is stored under `k`. -/
def contains (vs : Vars β) (k : κ) : Bool :=
  (vs.get? k).isSome

/-- Stores a value under its key. -/
def insert (vs : Vars β) (k : κ) (v : β k) : Vars β :=
  ⟨insertEntry k v vs.entries⟩

/-- Removes the value under `k`. -/
def erase (vs : Vars β) (k : κ) : Vars β :=
  ⟨vs.entries.filter fun e => e.1 ≠ k⟩

/-- Stores a value and returns the one it replaces. -/
def getThenInsert (vs : Vars β) (k : κ) (v : β k) : Option (β k) × Vars β :=
  (vs.get? k, vs.insert k v)

/-- Removes a value and returns it. -/
def getThenErase (vs : Vars β) (k : κ) : Option (β k) × Vars β :=
  (vs.get? k, vs.erase k)

/-- Changes the value under `k`, if there is one, and returns the new value. -/
def update (vs : Vars β) (k : κ) (f : β k → β k) : Option (β k) × Vars β :=
  match vs.get? k with
  | some v => (some (f v), vs.insert k (f v))
  | none => (none, vs)

theorem lookup_insertEntry_self (k : κ) (v : β k) (es : List ((k : κ) × β k)) :
    lookup k (insertEntry k v es) = some v := by
  induction es with
  | nil => simp [insertEntry, lookup]
  | cons e rest ih =>
    by_cases h : e.1 = k
    · simp [insertEntry, lookup, h]
    · simp [insertEntry, lookup, h, ih]

theorem lookup_insertEntry_of_ne {j k : κ} (h : j ≠ k) (v : β j) (es : List ((k : κ) × β k)) :
    lookup k (insertEntry j v es) = lookup k es := by
  induction es with
  | nil => simp [insertEntry, lookup, h]
  | cons e rest ih =>
    by_cases he : e.1 = j
    · have hk : e.1 ≠ k := he ▸ h
      simp [insertEntry, lookup, he, h]
    · by_cases hk : e.1 = k
      · rw [insertEntry, if_neg he, lookup, lookup, dif_pos hk, dif_pos hk]
      · simp [insertEntry, lookup, he, hk, ih]

/-- A stored value is found under its key. -/
@[simp] theorem get?_insert_self (vs : Vars β) (k : κ) (v : β k) :
    (vs.insert k v).get? k = some v :=
  lookup_insertEntry_self k v vs.entries

/-- Storing a value leaves the other keys alone. -/
theorem get?_insert_of_ne (vs : Vars β) {j k : κ} (h : j ≠ k) (v : β j) :
    (vs.insert j v).get? k = vs.get? k :=
  lookup_insertEntry_of_ne h v vs.entries

end Vars

end Arborist
