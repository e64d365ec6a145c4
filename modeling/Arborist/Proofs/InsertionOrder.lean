import Arborist.Proofs.Rebuilding
import Arborist.Proofs.Records
import Mathlib

/-!
# Children under every history

Children by role are a list of groups, and every operation on them keeps that list a map. A
`History` is how some children came about: they were collected from pairs, and then lists were set,
pushed to and removed, and the children were mapped.

* `History.run` does to the groups what the history says, and `History.content` does it to a finite
  map, that knows of no order.
* `History.touches` is all that counts for the order: which roles were set and removed, one after
  the other. A role stands where it was **first inserted** since it was last removed.
* `Children.Ordered` is what each operation preserves (`Ordered.insert`, `Ordered.erase`,
  `Ordered.of_roles`).
* `History.run_described` puts the views of a history together: the roles and their order, the list
  under each role, what the operations return, and the children with their locations.
-/

namespace Arborist

variable {N M : Type}

namespace Children

/-! ### Mapping and removing -/

/-- Maps every child, in view of **where it is**, and keeps roles and order. -/
def mapAt (f : Location → N → M) (c : Children N) : Children M :=
  ⟨c.groups.map fun g => (g.1, g.2.mapIdx fun i child => f ⟨g.1, i⟩ child)⟩

@[simp] theorem roles_mapAt (f : Location → N → M) (c : Children N) :
    (c.mapAt f).roles = c.roles := by
  simp [roles, mapAt]

theorem get?_mapAt (f : Location → N → M) (c : Children N) (r : Role) :
    (c.mapAt f).get? r = (c.get? r).map (List.mapIdx fun i child => f ⟨r, i⟩ child) :=
  lookup_map (fun r list => list.mapIdx fun i child => f ⟨r, i⟩ child) r c.groups

theorem mapAt_const (f : N → M) (c : Children N) : (c.mapAt fun _ => f) = c.map f := by
  have hlist : ∀ list : List N, (list.mapIdx fun _ child => f child) = list.map f := fun list =>
    List.ext_getElem (by simp) (by simp)
  simp only [mapAt, map, hlist]

theorem roles_erase (c : Children N) (role : Role) : (c.erase role).roles = c.roles.erase role := by
  obtain ⟨groups⟩ := c
  simp only [erase, roles]
  induction groups with
  | nil => rfl
  | cons g groups ih =>
    obtain ⟨r, list⟩ := g
    rw [eraseGroup, List.map_cons, List.erase_cons]
    by_cases hr : r = role
    · simp [hr]
    · simp [hr, ih]

theorem get?_erase_of_ne (c : Children N) {role r : Role} (h : r ≠ role) :
    (c.erase role).get? r = c.get? r := by
  obtain ⟨groups⟩ := c
  simp only [erase, get?]
  induction groups with
  | nil => rfl
  | cons g groups ih =>
    obtain ⟨s, list⟩ := g
    rw [eraseGroup]
    by_cases hs : s = role
    · rw [if_pos hs, lookup, if_neg (hs ▸ h.symm)]
    · rw [if_neg hs, lookup, lookup, ih]

/-- An insertion **updates** the lists as a finite map. -/
theorem get?_insert_eq_update (c : Children N) (role : Role) (list : List N) :
    (c.insert role list).get? = Function.update c.get? role (some list) := by
  funext r
  rw [get?_insert, Function.update_apply]
  simp only [eq_comm]

theorem get?_foldl_insert (pairs : List (Role × List N)) (c : Children N) :
    (pairs.foldl (fun c p => c.insert p.1 p.2) c).get? =
      pairs.foldl (fun (held : Role → Option (List N)) p =>
        Function.update held p.1 (some p.2)) c.get? := by
  induction pairs generalizing c with
  | nil => rfl
  | cons p pairs ih => rw [List.foldl_cons, ih, get?_insert_eq_update, List.foldl_cons]

/-- Children are listed role by role, with the list that each role has. -/
theorem located_eq_flatMap {c : Children N} (hc : c.roles.Nodup) :
    c.located = c.roles.flatMap fun role =>
      ((c.get? role).getD []).mapIdx fun i child => (⟨role, i⟩, child) := by
  rw [located, roles, List.flatMap_map, List.flatMap_def, List.flatMap_def]
  refine congrArg List.flatten (List.map_congr_left fun g hg => ?_)
  rw [get?_of_mem hc hg, Option.getD_some]

/-- Children of the shape of others are those, mapped in view of where they are. -/
theorem eq_mapAt_of_shape {c : Children N} {c' : Children M} (hc : c.roles.Nodup)
    (hshape : c'.shape = c.shape) (fallback : N → M) :
    c' = c.mapAt fun l child => (c'.at? l).getD (fallback child) := by
  have hroles : c'.roles = c.roles := by
    simpa [roles, shape, Function.comp_def] using congrArg (List.map Prod.fst) hshape
  have hlen : c'.groups.length = c.groups.length := by
    simpa [shape] using congrArg List.length hshape
  refine congrArg Children.mk (List.ext_getElem (by simp [hlen]) fun k hk _ => ?_)
  have hgroup : c'.groups[k].1 = c.groups[k].1 ∧
      c'.groups[k].2.length = c.groups[k].2.length := by
    have hentry := congrArg (fun s => s[k]?) hshape
    simpa [shape, hk, hlen ▸ hk] using hentry
  have hlist : c'.get? c.groups[k].1 = some c'.groups[k].2 :=
    hgroup.1 ▸ get?_of_mem (hroles ▸ hc) (List.getElem_mem hk)
  rw [List.getElem_map]
  refine Prod.ext hgroup.1 (List.ext_getElem (by simp [hgroup.2]) fun i hi _ => ?_)
  simp [at?, hlist, hi]

/-- What is dealt out over the roles has the shape of the children. -/
theorem shape_regroup (c : Children N) (items : List M) (h : items.length = c.flatten.length) :
    (c.regroup items).shape = c.shape := by
  obtain ⟨groups⟩ := c
  simp only [regroup, shape, flatten] at h ⊢
  induction groups generalizing items with
  | nil => rfl
  | cons g groups ih =>
    obtain ⟨role, list⟩ := g
    rw [List.flatMap_cons, List.length_append] at h
    rw [dealOut, List.map_cons, List.map_cons, ih _ (by simp [h]), List.length_take, h,
      Nat.min_eq_left (Nat.le_add_right _ _)]

end Children

/-! ### Histories -/

/-- How some children **came about**. Pushing does nothing to a role that is not there. -/
inductive History : Type → Type 1 where
  /-- They were collected from pairs, among which roles may repeat. -/
  | collect {N : Type} (pairs : List (Role × List N)) : History N
  /-- The list under a role was set. -/
  | insert {N : Type} (h : History N) (role : Role) (list : List N) : History N
  /-- Children were pushed to the list under a role, if the role was there. -/
  | push {N : Type} (h : History N) (role : Role) (list : List N) : History N
  /-- A role was removed. -/
  | remove {N : Type} (h : History N) (role : Role) : History N
  /-- The children were mapped. What a child was mapped to may depend on where it was, as with a
  closure that remembers the calls before. -/
  | map {N M : Type} (h : History N) (f : Location → N → M) : History M

namespace History

/-- The children that came about. -/
def run : {N : Type} → History N → Children N
  | _, collect pairs => .ofList pairs
  | _, insert h role list => h.run.insert role list
  | _, push h role list => (h.run.append? role list).getD h.run
  | _, remove h role => h.run.erase role
  | _, map h f => h.run.mapAt f

/-- The **finite map** from roles to lists that is updated by the same history. -/
def content : {N : Type} → History N → Role → Option (List N)
  | _, collect pairs =>
    pairs.foldl (fun held p => Function.update held p.1 (some p.2)) fun _ => none
  | _, insert h role list => Function.update h.content role (some list)
  | _, push h role list => Function.update h.content role ((h.content role).map (· ++ list))
  | _, remove h role => Function.update h.content role none
  | _, map h f => fun role => (h.content role).map (List.mapIdx fun i child => f ⟨role, i⟩ child)

/-! ### The order of the roles -/

/-- What counts for the order of the roles. -/
inductive Touch where
  | inserted (role : Role)
  | removed (role : Role)
deriving DecidableEq

/-- What counted for the order of the roles, in the order of the history. -/
def touches : {N : Type} → History N → List Touch
  | _, collect pairs => pairs.map fun p => .inserted p.1
  | _, insert h role _ => h.touches ++ [.inserted role]
  | _, push h _ _ => h.touches
  | _, remove h role => h.touches ++ [.removed role]
  | _, map h _ => h.touches

/-- The insertions of a role after which it was **not removed** any more. -/
def insertionsOf (touches : List Touch) (role : Role) : Set Nat :=
  {i | touches[i]? = some (.inserted role) ∧ ∀ j, i < j → touches[j]? ≠ some (.removed role)}

/-- The touch at which a role was **first inserted since it was last removed**. -/
def FirstInserted (touches : List Touch) (role : Role) (i : Nat) : Prop :=
  IsLeast (insertionsOf touches role) i

variable {touches : List Touch} {t : Touch} {role : Role} {i : Nat}

theorem lt_length_of_mem (h : i ∈ insertionsOf touches role) : i < touches.length :=
  (List.getElem?_eq_some_iff.mp h.1).1

/-- What is looked up in a list with one more entry. -/
theorem getElem?_snoc_eq_some_iff {α : Type} {l : List α} {a b : α} {j : Nat} :
    (l ++ [a])[j]? = some b ↔ l[j]? = some b ∨ j = l.length ∧ a = b := by
  rcases Nat.lt_trichotomy j l.length with hlt | rfl | hgt
  · simp [List.getElem?_append_left hlt, Nat.ne_of_lt hlt]
  · simp
  · have hbeyond : (l ++ [a])[j]? = none := List.getElem?_eq_none (by simpa using hgt)
    simp [hbeyond, Nat.le_of_lt hgt, Nat.ne_of_gt hgt]

theorem mem_insertionsOf_append : i ∈ insertionsOf (touches ++ [t]) role ↔
    i ∈ insertionsOf touches role ∧ t ≠ .removed role ∨
      i = touches.length ∧ t = .inserted role := by
  constructor
  · rintro ⟨hi, hkept⟩
    rcases getElem?_snoc_eq_some_iff.mp hi with hold | hlast
    · have hlt := (List.getElem?_eq_some_iff.mp hold).1
      exact .inl ⟨⟨hold, fun j hij hj => hkept j hij (getElem?_snoc_eq_some_iff.mpr (.inl hj))⟩,
        fun ht => hkept _ hlt (getElem?_snoc_eq_some_iff.mpr (.inr ⟨rfl, ht⟩))⟩
    · exact .inr hlast
  · rintro (⟨⟨hi, hkept⟩, ht⟩ | ⟨rfl, rfl⟩)
    · refine ⟨getElem?_snoc_eq_some_iff.mpr (.inl hi), fun j hij hj => ?_⟩
      rcases getElem?_snoc_eq_some_iff.mp hj with hold | ⟨-, hlast⟩
      · exact hkept j hij hold
      · exact ht hlast
    · refine ⟨getElem?_snoc_eq_some_iff.mpr (.inr ⟨rfl, rfl⟩), fun j hij hj => ?_⟩
      rcases getElem?_snoc_eq_some_iff.mp hj with hold | ⟨-, hlast⟩
      · exact Nat.lt_asymm hij (List.getElem?_eq_some_iff.mp hold).1
      · cases hlast

/-- Where a role was first inserted **stays** until the role is removed. -/
theorem FirstInserted.append (h : FirstInserted touches role i) (ht : t ≠ .removed role) :
    FirstInserted (touches ++ [t]) role i := by
  refine ⟨mem_insertionsOf_append.mpr (.inl ⟨h.1, ht⟩), fun j hj => ?_⟩
  rcases mem_insertionsOf_append.mp hj with ⟨hj, -⟩ | ⟨rfl, -⟩
  · exact h.2 hj
  · exact Nat.le_of_lt (lt_length_of_mem h.1)

/-- A role that is not there is first inserted **by the last** insertion. -/
theorem firstInserted_last (h : ∀ i, ¬FirstInserted touches role i) :
    FirstInserted (touches ++ [.inserted role]) role touches.length := by
  refine ⟨mem_insertionsOf_append.mpr (.inr ⟨rfl, rfl⟩), fun j hj => ?_⟩
  rcases mem_insertionsOf_append.mp hj with ⟨hj, -⟩ | ⟨rfl, -⟩
  · exact (h _ ⟨Nat.sInf_mem ⟨j, hj⟩, fun _ hk => Nat.sInf_le hk⟩).elim
  · exact Nat.le_refl _

/-- Nothing but an insertion of the role itself inserts it. -/
theorem FirstInserted.of_append (h : FirstInserted (touches ++ [t]) role i)
    (ht : t ≠ .inserted role) : t ≠ .removed role ∧ FirstInserted touches role i := by
  have hmem : ∀ {j}, j ∈ insertionsOf (touches ++ [t]) role →
      j ∈ insertionsOf touches role ∧ t ≠ .removed role := fun hj =>
    (mem_insertionsOf_append.mp hj).resolve_right fun hlast => ht hlast.2
  obtain ⟨hi, hkept⟩ := hmem h.1
  exact ⟨hkept, hi, fun j hj => h.2 (mem_insertionsOf_append.mpr (.inl ⟨hj, hkept⟩))⟩

/-- Which roles are there after an insertion. -/
theorem exists_firstInserted_inserted {r : Role} :
    (∃ i, FirstInserted (touches ++ [.inserted role]) r i) ↔
      r = role ∨ ∃ i, FirstInserted touches r i := by
  constructor
  · rintro ⟨i, hi⟩
    by_cases hr : r = role
    · exact .inl hr
    · exact .inr ⟨i, (hi.of_append fun heq => hr (Touch.inserted.inj heq).symm).2⟩
  · by_cases hold : ∃ i, FirstInserted touches r i
    · exact fun _ => hold.imp fun i hi => hi.append nofun
    · rintro (rfl | hr)
      · exact ⟨_, firstInserted_last (not_exists.mp hold)⟩
      · exact (hold hr).elim

/-- Which roles are there after a removal. -/
theorem exists_firstInserted_removed {r : Role} :
    (∃ i, FirstInserted (touches ++ [.removed role]) r i) ↔
      r ≠ role ∧ ∃ i, FirstInserted touches r i := by
  constructor
  · rintro ⟨i, hi⟩
    obtain ⟨hkept, hi⟩ := hi.of_append nofun
    exact ⟨fun heq => hkept (heq ▸ rfl), i, hi⟩
  · rintro ⟨hr, i, hi⟩
    exact ⟨i, hi.append fun heq => hr (Touch.removed.inj heq).symm⟩

end History

open History

/-! ### What every operation keeps -/

/-- The roles of some children are **ordered** by where they were first inserted. -/
structure Children.Ordered (touches : List Touch) (c : Children N) : Prop where
  distinct : c.roles.Nodup
  held : ∀ role, role ∈ c.roles ↔ ∃ i, FirstInserted touches role i
  ordered : c.roles.Pairwise fun r s =>
    ∃ i j, FirstInserted touches r i ∧ FirstInserted touches s j ∧ i < j

namespace Children.Ordered

variable {touches : List Touch} {c : Children N}

theorem empty : Ordered [] (.empty : Children N) where
  distinct := List.nodup_nil
  held role := ⟨fun h => by simp [roles, Children.empty] at h,
    fun ⟨_, h⟩ => absurd (lt_length_of_mem h.1) (Nat.not_lt_zero _)⟩
  ordered := List.Pairwise.nil

/-- Only the order of the roles counts. -/
theorem of_roles (h : Ordered touches c) {c' : Children M} (hroles : c'.roles = c.roles) :
    Ordered touches c' where
  distinct := hroles ▸ h.distinct
  held := hroles ▸ h.held
  ordered := hroles ▸ h.ordered

/-- Two roles in their order stay in it as long as neither is removed. -/
theorem pairwise_append {roles : List Role} {t : Touch}
    (h : roles.Pairwise fun r s =>
      ∃ i j, FirstInserted touches r i ∧ FirstInserted touches s j ∧ i < j)
    (ht : ∀ r ∈ roles, t ≠ .removed r) :
    roles.Pairwise fun r s => ∃ i j, FirstInserted (touches ++ [t]) r i ∧
      FirstInserted (touches ++ [t]) s j ∧ i < j :=
  h.imp_of_mem fun hr hs ⟨i, j, hi, hj, hij⟩ =>
    ⟨i, j, hi.append (ht _ hr), hj.append (ht _ hs), hij⟩

/-- An **insertion** leaves the roles where they are, and puts a new role behind all of them. -/
theorem insert (h : Ordered touches c) (role : Role) (list : List N) :
    Ordered (touches ++ [.inserted role]) (c.insert role list) := by
  have hkept := pairwise_append h.ordered (t := .inserted role) fun _ _ => nofun
  by_cases hrole : role ∈ c.roles
  · have hroles : (c.insert role list).roles = c.roles := by rw [roles_insert, if_pos hrole]
    refine ⟨hroles ▸ h.distinct, fun r => ?_, hroles ▸ hkept⟩
    rw [hroles, exists_firstInserted_inserted, ← h.held]
    exact ⟨.inr, fun hr => hr.elim (· ▸ hrole) id⟩
  · have hroles : (c.insert role list).roles = c.roles ++ [role] := by
      rw [roles_insert, if_neg hrole]
    have hlast := firstInserted_last (not_exists.mp ((h.held role).not.mp hrole))
    refine ⟨?_, fun r => ?_, ?_⟩
    · rw [hroles]
      exact List.nodup_append.mpr ⟨h.distinct, List.nodup_singleton role,
        fun r hr s hs heq => hrole (List.mem_singleton.mp hs ▸ heq ▸ hr)⟩
    · rw [hroles, exists_firstInserted_inserted, ← h.held, List.mem_append, List.mem_singleton,
        or_comm]
    · rw [hroles]
      refine List.pairwise_append.mpr ⟨hkept, List.pairwise_singleton _ _, fun r hr s hs => ?_⟩
      obtain ⟨i, hi⟩ := (h.held r).mp hr
      obtain rfl := List.mem_singleton.mp hs
      exact ⟨i, _, hi.append nofun, hlast, lt_length_of_mem hi.1⟩

/-- A **removal** leaves all other roles where they are. -/
theorem erase (h : Ordered touches c) (role : Role) :
    Ordered (touches ++ [.removed role]) (c.erase role) := by
  have hmem : ∀ {r}, r ∈ (c.erase role).roles ↔ r ≠ role ∧ r ∈ c.roles := by
    intro r
    rw [roles_erase, h.distinct.mem_erase_iff]
  refine ⟨?_, fun r => ?_, ?_⟩
  · rw [roles_erase]
    exact h.distinct.erase role
  · rw [hmem, h.held, exists_firstInserted_removed]
  · refine pairwise_append (h.ordered.sublist ?_) fun r hr heq => ?_
    · rw [roles_erase]
      exact List.erase_sublist
    · exact (hmem.mp hr).1 (Touch.removed.inj heq).symm

/-- Pairs that are inserted one after the other. -/
theorem foldl_insert (h : Ordered touches c) (pairs : List (Role × List N)) :
    Ordered (touches ++ pairs.map fun p => .inserted p.1)
      (pairs.foldl (fun c p => c.insert p.1 p.2) c) := by
  induction pairs generalizing touches c with
  | nil => simpa using h
  | cons p pairs ih => simpa using ih (h.insert p.1 p.2)

end Children.Ordered

namespace History

variable (h : History N)

/-! ### Runs -/

/-- The roles of a history are distinct, and in the order of their first insertions. -/
theorem ordered_run : {N : Type} → (h : History N) → Children.Ordered h.touches h.run
  | _, collect pairs => Children.Ordered.empty.foldl_insert pairs
  | _, insert h role list => h.ordered_run.insert role list
  | _, push h role list => by
    refine h.ordered_run.of_roles ?_
    rw [run, Children.append?]
    cases hlist : h.run.get? role with
    | none => rfl
    | some old => exact Children.roles_insert_of_get? hlist _
  | _, remove h role => h.ordered_run.erase role
  | _, map h f => h.ordered_run.of_roles (Children.roles_mapAt f h.run)

/-- The lists of a history are those of the **finite map**. -/
theorem get?_run : {N : Type} → (h : History N) → h.run.get? = h.content
  | _, collect pairs => Children.get?_foldl_insert pairs .empty
  | _, insert h role list => by rw [run, Children.get?_insert_eq_update, get?_run h, content]
  | _, push h role list => by
    rw [run, content, Children.append?, ← get?_run h]
    cases hlist : h.run.get? role with
    | none => exact (Function.update_eq_self_iff.mpr hlist.symm).symm
    | some old => exact Children.get?_insert_eq_update _ _ _
  | _, remove h role => by
    funext r
    rw [run, content, ← get?_run h, Function.update_apply]
    split
    · next hr =>
      rw [Children.get?_eq_none_iff, Children.roles_erase, h.ordered_run.distinct.mem_erase_iff]
      exact fun hmem => hmem.1 hr
    · next hr => exact Children.get?_erase_of_ne _ hr
  | _, map h f => by
    funext r
    rw [run, content, Children.get?_mapAt, get?_run h]

/-! ### All views of a history -/

/-- What a closure with a state **answers** to the children of a list, one after the other. -/
def answers {τ : Type} (closure : τ → N → M × τ) : τ → List N → List M
  | _, [] => []
  | t, child :: list => (closure t child).1 :: answers closure (closure t child).2 list

theorem length_answers {τ : Type} (closure : τ → N → M × τ) (t : τ) (list : List N) :
    (answers closure t list).length = list.length := by
  induction list generalizing t with
  | nil => rfl
  | cons child list ih => rw [answers, List.length_cons, List.length_cons, ih]

/-- Children **are described** by a history of theirs: the roles are distinct, those that were
inserted and not removed are there, in the order in which each was first inserted since, and the
list under each is that of the finite map. All children are listed role by role and from left to
right, each of them once and with the location where it is found. -/
structure Describes (h : History N) (c : Children N) : Prop where
  distinct : c.roles.Nodup
  held : ∀ role, role ∈ c.roles ↔ ∃ i, FirstInserted h.touches role i
  ordered : c.roles.Pairwise fun r s =>
    ∃ i j, FirstInserted h.touches r i ∧ FirstInserted h.touches s j ∧ i < j
  lists : ∀ role, c.get? role = h.content role
  listed : c.located = c.roles.flatMap fun role =>
    ((h.content role).getD []).mapIdx fun i child => (⟨role, i⟩, child)
  once : (c.located.map Prod.fst).Nodup
  found : ∀ l child, (l, child) ∈ c.located ↔
    ∃ list, c.get? l.role = some list ∧ list[l.index]? = some child

theorem describes_run : h.Describes h.run where
  distinct := h.ordered_run.distinct
  held := h.ordered_run.held
  ordered := h.ordered_run.ordered
  lists role := congrFun h.get?_run role
  listed := h.get?_run ▸ Children.located_eq_flatMap h.ordered_run.distinct
  once := Children.nodup_located h.ordered_run.distinct
  found l child := by
    rw [Children.mem_located h.ordered_run.distinct, Children.at?, Option.bind_eq_some_iff]

/-- Children by role are an **insertion-ordered map** under every history of collecting, inserting,
pushing, removing and mapping: they are described by the history, and inserting, removing and
pushing return what the finite map had under the role. A closure maps the children as a history
does, also one with a state, that is called role by role and from left to right. The unnamed role is
none with a name, not even the empty one. -/
theorem run_described :
    h.Describes h.run ∧
      (∀ role list, h.run.getThenInsert role list = (h.content role, (h.insert role list).run)) ∧
      (∀ role, h.run.getThenErase role = (h.content role, (h.remove role).run)) ∧
      (∀ role list, h.run.append? role list =
        (h.content role).map fun _ => (h.push role list).run) ∧
      (∀ {M : Type} (f : N → M), h.run.map f = (h.map fun _ => f).run) ∧
      (∀ {τ M : Type} (closure : τ → N → M × τ) (t : τ),
        ∃ f, h.run.regroup (answers closure t h.run.flatten) = (h.map f).run) ∧
      ∀ name, Role.unnamed ≠ .named name := by
  have hget : ∀ role, h.run.get? role = h.content role := congrFun h.get?_run
  refine ⟨h.describes_run, fun role list => ?_, fun role => ?_, fun role list => ?_, fun f => ?_,
    fun closure t => ?_, nofun⟩
  · rw [Children.getThenInsert, hget, run]
  · rw [Children.getThenErase, hget, run]
  · rw [run, Children.append?, hget]
    cases h.content role <;> rfl
  · rw [run, Children.mapAt_const]
  · have hshape := Children.shape_regroup h.run _ (length_answers closure t h.run.flatten)
    simp only [run]
    exact ⟨_, Children.eq_mapAt_of_shape h.ordered_run.distinct hshape fun child =>
      (closure t child).1⟩

/-- A role that is inserted again stays where it is, and moves to the end if it was removed. -/
example :
    let h := History.collect [(.named "a", [1, 2]), (.unnamed, [3]), (.named "", []),
      (.named "a", [9])]
    h.run.groups = [(.named "a", [9]), (.unnamed, [3]), (.named "", [])] ∧
      ((h.remove (.named "a")).insert (.named "a") [4]).run.groups =
        [(.unnamed, [3]), (.named "", []), (.named "a", [4])] := by decide

end History

end Arborist
