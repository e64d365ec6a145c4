/-!
# Dictionaries

A **dictionary** maps texts to values. It is kept as a list of entries in strictly ascending order
of the keys, by code point, which is also the order of their UTF-8 bytes. A later entry of a key
replaces an earlier one.

* `Dict.find?_insert`: what an insertion does to lookups.
-/

namespace Arborist

/-- Entries in ascending order of their keys. -/
abbrev Dict (α : Type) := List (String × α)

namespace Dict

variable {α : Type}

/-- The value under a key. -/
def find? (key : String) : Dict α → Option α
  | [] => none
  | (k, v) :: rest => if k = key then some v else find? key rest

/-- Puts an entry in its place, or replaces the entry of its key. -/
def insert (key : String) (value : α) : Dict α → Dict α
  | [] => [(key, value)]
  | (k, v) :: rest =>
    if k = key then (key, value) :: rest
    else if key < k then (key, value) :: (k, v) :: rest
    else (k, v) :: insert key value rest

/-- The dictionary of a list of entries; the last entry of a key counts. -/
def ofList (entries : List (String × α)) : Dict α :=
  entries.foldl (fun d e => insert e.1 e.2 d) []

/-- After an insertion the key has the new value, and every other key what it had. -/
@[simp] theorem find?_insert (key k : String) (value : α) (d : Dict α) :
    find? k (insert key value d) = if key = k then some value else find? k d := by
  induction d with
  | nil => simp [insert, find?]
  | cons e rest ih =>
    obtain ⟨j, v⟩ := e
    by_cases hj : j = key
    · subst hj
      by_cases hk : j = k <;> simp [insert, find?, hk]
    · by_cases hlt : key < j
      · simp [insert, find?, hj, hlt]
      · by_cases hjk : j = k
        · subst hjk
          simp [insert, find?, hj, hlt, Ne.symm hj]
        · simp [insert, find?, hj, hlt, hjk, ih]

end Dict

end Arborist
