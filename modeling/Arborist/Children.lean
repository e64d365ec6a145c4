import Arborist.Role

/-!
# Children grouped by role

`Children N` maps roles to lists of children and remembers the order in which the roles were first
inserted. Walks follow that order, and within a role they go from left to right. Inserting a role
that is already there replaces its list **in place**.

* `Children.get?_insert` and `Children.roles_insert` say what an insertion does to the two views
  of the map, the lists by role and the order of the roles.
* `Children.located` lists all children with their locations, `Children.number` replaces them by
  consecutive numbers in the same order.
-/

namespace Arborist

/-- An insertion-ordered map from roles to lists of children. -/
structure Children (N : Type) where
  groups : List (Role × List N)
deriving DecidableEq

namespace Children

variable {N M : Type}

/-- No roles at all. -/
def empty : Children N := ⟨[]⟩

instance : EmptyCollection (Children N) := ⟨empty⟩

instance : Inhabited (Children N) := ⟨empty⟩

/-! ### Groups as association lists -/

/-- The list under `role`, from the first group that has it. -/
def lookup (role : Role) : List (Role × List N) → Option (List N)
  | [] => none
  | (r, list) :: rest => if r = role then some list else lookup role rest

/-- Replaces the list under `role`, or adds a group at the end. -/
def insertGroup (role : Role) (list : List N) : List (Role × List N) → List (Role × List N)
  | [] => [(role, list)]
  | (r, old) :: rest =>
    if r = role then (r, list) :: rest else (r, old) :: insertGroup role list rest

/-- Drops the first group under `role`. -/
def eraseGroup (role : Role) : List (Role × List N) → List (Role × List N)
  | [] => []
  | (r, list) :: rest => if r = role then rest else (r, list) :: eraseGroup role rest

/-! ### The map -/

/-- The children under `role`, if the role is there. -/
def get? (c : Children N) (role : Role) : Option (List N) :=
  lookup role c.groups

/-- Sets the children under `role`: in place if the role is there, else as the last role. -/
def insert (c : Children N) (role : Role) (list : List N) : Children N :=
  ⟨insertGroup role list c.groups⟩

/-- Removes `role` and its children. -/
def erase (c : Children N) (role : Role) : Children N :=
  ⟨eraseGroup role c.groups⟩

/-- Sets the children under `role` and returns those it had. -/
def getThenInsert (c : Children N) (role : Role) (list : List N) :
    Option (List N) × Children N :=
  (c.get? role, c.insert role list)

/-- Removes `role` and returns its children. -/
def getThenErase (c : Children N) (role : Role) : Option (List N) × Children N :=
  (c.get? role, c.erase role)

/-- Appends to the children under `role`, if the role is there. -/
def append? (c : Children N) (role : Role) (list : List N) : Option (Children N) :=
  (c.get? role).map fun old => c.insert role (old ++ list)

/-- Inserts the groups of a list one after the other. -/
def ofList (groups : List (Role × List N)) : Children N :=
  groups.foldl (fun c g => c.insert g.1 g.2) empty

/-- The roles in order. -/
def roles (c : Children N) : List Role :=
  c.groups.map Prod.fst

/-- The number of roles, those with an empty list included. -/
def roleCount (c : Children N) : Nat :=
  c.groups.length

/-- Whether there is no child under any role. -/
def isEmpty (c : Children N) : Bool :=
  c.groups.all fun g => g.2.isEmpty

/-- All children, in role order and then from left to right. -/
def flatten (c : Children N) : List N :=
  c.groups.flatMap Prod.snd

/-- All children with their locations, in role order and then from left to right. -/
def located (c : Children N) : List (Location × N) :=
  c.groups.flatMap fun g => g.2.mapIdx fun i child => (⟨g.1, i⟩, child)

/-- Maps every child and keeps roles and order. -/
def map (f : N → M) (c : Children N) : Children M :=
  ⟨c.groups.map fun g => (g.1, g.2.map f)⟩

/-- Maps every child and drops those that map to nothing. -/
def filterMap (f : N → Option M) (c : Children N) : Children M :=
  ⟨c.groups.map fun g => (g.1, g.2.filterMap f)⟩

/-- Replaces the children of the groups by `n`, `n + 1`, … in order. -/
def numberGroups : Nat → List (Role × List N) → List (Role × List Nat)
  | _, [] => []
  | n, (r, list) :: rest => (r, List.range' n list.length) :: numberGroups (n + list.length) rest

/-- Replaces the children by `n`, `n + 1`, … in role order and then from left to right. -/
def number (n : Nat) (c : Children N) : Children Nat :=
  ⟨numberGroups n c.groups⟩

/-- Deals a list out group by group. -/
def dealOut : List (Role × List N) → List M → List (Role × List M)
  | [], _ => []
  | (r, list) :: rest, items =>
    (r, items.take list.length) :: dealOut rest (items.drop list.length)

/-- Deals a list out over roles: each takes as many items as `c` has children there. -/
def regroup (c : Children N) (items : List M) : Children M :=
  ⟨dealOut c.groups items⟩

/-! ### Both views of an insertion -/

theorem lookup_insertGroup (role r : Role) (list : List N) (gs : List (Role × List N)) :
    lookup r (insertGroup role list gs) = if role = r then some list else lookup r gs := by
  induction gs with
  | nil => simp [insertGroup, lookup]
  | cons g rest ih =>
    obtain ⟨s, old⟩ := g
    by_cases hs : s = role
    · subst hs
      by_cases hr : s = r <;> simp [insertGroup, lookup, hr]
    · by_cases hr : s = r
      · subst hr
        simp [insertGroup, lookup, hs, Ne.symm hs]
      · simp [insertGroup, lookup, hs, hr, ih]

/-- After an insertion the role has the new list, and every other role what it had. -/
@[simp] theorem get?_insert (c : Children N) (role r : Role) (list : List N) :
    (c.insert role list).get? r = if role = r then some list else c.get? r :=
  lookup_insertGroup role r list c.groups

/-- An insertion keeps the order of the roles and adds a new role at the end. -/
theorem roles_insert (c : Children N) (role : Role) (list : List N) :
    (c.insert role list).roles = if role ∈ c.roles then c.roles else c.roles ++ [role] := by
  obtain ⟨gs⟩ := c
  simp only [insert, roles]
  induction gs with
  | nil => simp [insertGroup]
  | cons g rest ih =>
    obtain ⟨s, old⟩ := g
    by_cases hs : s = role
    · simp [insertGroup, hs]
    · simp only [insertGroup, hs, if_false, List.map_cons, List.mem_cons, Ne.symm hs, false_or]
      rw [ih]
      by_cases hr : role ∈ rest.map Prod.fst <;> simp [hr]

@[simp] theorem roles_map (f : N → M) (c : Children N) : (c.map f).roles = c.roles := by
  simp [roles, map]

/-! ### Children one after the other -/

/-- The children without their locations. -/
theorem map_located (c : Children N) : c.located.map Prod.snd = c.flatten := by
  simp only [located, flatten, List.map_flatMap]
  congr 1
  funext g
  apply List.ext_getElem <;> simp

/-- What was dealt out is all there, in order. -/
theorem flatten_regroup (c : Children N) (items : List M) (h : items.length = c.flatten.length) :
    (c.regroup items).flatten = items := by
  obtain ⟨groups⟩ := c
  simp only [regroup, flatten] at h ⊢
  induction groups generalizing items with
  | nil => exact (List.eq_nil_of_length_eq_zero h).symm
  | cons g groups ih =>
    obtain ⟨role, list⟩ := g
    rw [List.flatMap_cons, List.length_append] at h
    rw [dealOut, List.flatMap_cons, ih _ (by simp [h]), List.take_append_drop]

end Children

end Arborist
