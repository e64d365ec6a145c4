import Arborist.Proofs.AllAtOnce
import Mathlib

/-!
# Records of a rewrite

The edits that are recorded while a tree is rewritten form a tree of their own: at every position
those that were asked for there, and between what was asked for on entering and on leaving, those of
the children.

* A `Note` is what was asked for at one position, and `Note.Owns` that some edits stand for it.
* `Records` are the edits at a position and below it, with the **stations** that they run through
  and with what is yielded in place of the node.
* `Records.surrounded_edited`: what is yielded is what the batch of all edits means at the position.
* `Records.coherent` and `Records.toRoot`: if no identity occurs twice among the stations, then the
  edits go together, and applying them gives what was yielded.
-/

namespace Arborist

variable {σ N : Type}

/-! ### Positions below a node -/

namespace Children

theorem mem_located {c : Children N} (hc : c.roles.Nodup) {l : Location} {child : N} :
    (l, child) ∈ c.located ↔ c.at? l = some child := by
  simp only [located, List.mem_flatMap, List.mem_mapIdx, at?, Option.bind_eq_some_iff]
  constructor
  · rintro ⟨g, hg, i, hi, heq⟩
    obtain ⟨rfl, rfl⟩ := Prod.mk.inj heq
    exact ⟨g.2, get?_of_mem hc hg, List.getElem?_eq_getElem hi⟩
  · rintro ⟨list, hlist, hchild⟩
    obtain ⟨hi, hget⟩ := List.getElem?_eq_some_iff.mp hchild
    exact ⟨_, mem_groups_of_get? hlist, l.index, hi, by rw [← hget]⟩

/-- No location occurs twice. -/
theorem nodup_located {c : Children N} (hc : c.roles.Nodup) : (c.located.map Prod.fst).Nodup := by
  obtain ⟨groups⟩ := c
  simp only [located, roles] at hc ⊢
  induction groups with
  | nil => exact List.nodup_nil
  | cons g groups ih =>
    obtain ⟨hnot, hrest⟩ := List.nodup_cons.mp hc
    rw [List.flatMap_cons, List.map_append]
    refine List.nodup_append.mpr ⟨?_, ih hrest, ?_⟩
    · have hindices : (g.2.mapIdx fun i child => ((⟨g.1, i⟩ : Location), child)).map Prod.fst =
          (List.range g.2.length).map fun i => (⟨g.1, i⟩ : Location) := by
        apply List.ext_getElem <;> simp
      rw [hindices]
      exact List.Pairwise.map _ (fun i j hij heq => hij (Location.mk.inj heq).2) List.nodup_range
    · rintro l hl m hm rfl
      simp only [List.mem_map, List.mem_mapIdx, List.mem_flatMap] at hl hm
      obtain ⟨_, ⟨i, hi, rfl⟩, rfl⟩ := hl
      obtain ⟨_, ⟨g', hg', j, hj, rfl⟩, heq⟩ := hm
      exact hnot (List.mem_map.mpr ⟨g', hg', (Location.mk.inj heq).1⟩)

theorem spread_congr {M : Type} {c : Children N} (hc : c.roles.Nodup)
    {f g : Location → N → List M} (h : ∀ l child, c.at? l = some child → f l child = g l child) :
    c.spread f = c.spread g := by
  simp only [spread, Children.mk.injEq]
  refine List.map_congr_left fun p hp => ?_
  have hlist : (p.2.mapIdx fun i child => f ⟨p.1, i⟩ child) =
      p.2.mapIdx fun i child => g ⟨p.1, i⟩ child := by
    refine List.mapIdx_eq_mapIdx_iff.mpr fun i hi => h _ _ ?_
    rw [at?, get?_of_mem hc hp]
    exact List.getElem?_eq_getElem hi
  rw [hlist]

end Children

/-- The part of a list that belongs to one key. -/
theorem filter_flatMap_eq {α κ γ : Type} {list : List (κ × α)} (hkeys : (list.map Prod.fst).Nodup)
    {parts : κ → List γ} {q : γ → Bool} {key : κ} {a : α} (hkey : (key, a) ∈ list)
    (hin : ∀ x ∈ parts key, q x = true)
    (hout : ∀ p ∈ list, p.1 ≠ key → ∀ x ∈ parts p.1, q x = false) :
    (list.flatMap fun p => parts p.1).filter q = parts key := by
  induction list with
  | nil => simp at hkey
  | cons p list ih =>
    obtain ⟨hnot, hrest⟩ := List.nodup_cons.mp hkeys
    rw [List.flatMap_cons, List.filter_append]
    rcases List.mem_cons.mp hkey with rfl | hmem
    · have hlater : (list.flatMap fun p => parts p.1).filter q = [] := by
        refine List.filter_eq_nil_iff.mpr fun x hx => ?_
        obtain ⟨p, hp, hx⟩ := List.mem_flatMap.mp hx
        have hne : p.1 ≠ key := fun heq => hnot (List.mem_map.mpr ⟨p, hp, heq⟩)
        simp [hout p (List.mem_cons_of_mem _ hp) hne x hx]
      rw [hlater, List.append_nil]
      exact List.filter_eq_self.mpr hin
    · have hne : p.1 ≠ key := fun heq => hnot (List.mem_map.mpr ⟨_, hmem, heq.symm⟩)
      have hfirst : (parts p.1).filter q = [] :=
        List.filter_eq_nil_iff.mpr fun x hx => by simp [hout p List.mem_cons_self hne x hx]
      rw [hfirst, List.nil_append]
      exact ih hrest hmem fun p hp => hout p (List.mem_cons_of_mem _ hp)

/-! ### Notes -/

/-- What was asked for at a position. -/
structure Note (N : Type) where
  /-- The node that was met. -/
  met : N
  /-- The node as it stood once it had been entered. -/
  entered : N
  before : List N
  after : List N
  deleted : Bool
  /-- The node that was given last. -/
  given : Option N
  /-- Whether it was given while leaving. -/
  late : Bool

namespace Note

variable (note : Note N)

/-- The nodes of the edits of one kind. -/
def carried : Edit → List N
  | .replace => note.given.toList
  | .delete => if note.deleted then [note.met] else []
  | .insertBefore => note.before
  | .insertAfter => note.after

/-- What stands in place of the node. -/
def yield (touched : Bool) (children : Children (Sketch N)) : List (Sketch N) :=
  note.before.map .keep ++
    (if note.deleted then []
      else [if note.late then .keep (note.given.getD note.met)
        else if touched then .rebuild note.entered children
        else .keep note.entered]) ++
    note.after.map .keep

variable [Identified N]

/-- What is noted goes together. -/
structure Sane : Prop where
  kept : note.given = none → note.entered = note.met
  early : note.late = false → note.entered = note.given.getD note.met
  late : note.late = true → identity (note.given.getD note.met) ≠ identity note.entered
  deleted : note.deleted = true → note.given = none

/-- Some edits at a position are **what is noted** there. -/
structure Owns (crumbs : List (Crumb N)) (own : List (Zipper N)) : Prop where
  here : ∀ z ∈ own, z.crumbs = crumbs
  carried : ∀ edit, (own.filter fun z => z.edit = edit).map Zipper.node = note.carried edit

omit [Identified N] in
theorem Owns.length_filter {note : Note N} {crumbs : List (Crumb N)} {own : List (Zipper N)}
    (h : note.Owns crumbs own) (edit : Edit) :
    (own.filter fun z => z.edit = edit).length = (note.carried edit).length := by
  rw [← h.carried edit, List.length_map]

/-- A position is replaced or deleted at most once. -/
theorem Owns.once {note : Note N} {crumbs : List (Crumb N)} {own : List (Zipper N)}
    (h : note.Owns crumbs own) (sane : note.Sane) :
    own.Pairwise fun y z => y.edit.inserts = false → z.edit.inserts = false → y.way ≠ z.way := by
  -- one of the two kinds does not occur at all, and the other one at most once
  obtain ⟨edit, honly, hone⟩ : ∃ edit, (∀ z ∈ own, z.edit.inserts = false → z.edit = edit) ∧
      (note.carried edit).length ≤ 1 := by
    cases hgiven : note.given with
    | none =>
      refine ⟨.delete, fun z hz hedit => ?_, by rw [Note.carried]; split <;> simp⟩
      have hnil := h.length_filter .replace
      rw [Note.carried, hgiven, Option.toList_none, List.length_nil,
        List.length_eq_zero_iff] at hnil
      have hne := List.filter_eq_nil_iff.mp hnil z hz
      cases hz : z.edit <;> simp_all [Edit.inserts]
    | some given =>
      refine ⟨.replace, fun z hz hedit => ?_, by rw [Note.carried, hgiven]; simp⟩
      have hkept : note.deleted ≠ true := fun hdeleted => by
        simp [sane.deleted hdeleted] at hgiven
      have hnil := h.length_filter .delete
      rw [Note.carried, if_neg hkept, List.length_nil, List.length_eq_zero_iff] at hnil
      have hne := List.filter_eq_nil_iff.mp hnil z hz
      cases hz : z.edit <;> simp_all [Edit.inserts]
  rw [← h.length_filter edit] at hone
  have hpair : (own.filter fun z => z.edit = edit).Pairwise fun _ _ => False :=
    List.pairwise_iff_getElem.mpr fun i j _ hj hij => by omega
  refine (List.pairwise_filter.mp hpair).imp_of_mem fun {y z} hy hz hnot hyedit hzedit => ?_
  exact (hnot (decide_eq_true (honly y hy hyedit)) (decide_eq_true (honly z hz hzedit))).elim

end Note

variable [Identified N]

/-- The edits that were **recorded** at a position and below it, the nodes that they run through
with their positions, and what stands in place of the node. -/
inductive Records (adapter : Adapter σ N) : List (Crumb N) → N → List (Zipper N) →
    List (List (Crumb N) × N) → List (Sketch N) → Prop where
  | unreached (crumbs : List (Crumb N)) (node : N) : Records adapter crumbs node [] [] [.keep node]
  | reached {crumbs : List (Crumb N)} {note : Note N} {first last : List (Zipper N)}
      {parts : Location → List (Zipper N)} {stations : Location → List (List (Crumb N) × N)}
      {yields : Location → List (Sketch N)} (sane : note.Sane)
      (own : note.Owns crumbs (first ++ last))
      (roles : (adapter.children note.entered).roles.Nodup)
      (below : ∀ l child, (adapter.children note.entered).at? l = some child →
        Records adapter (⟨note.entered, l⟩ :: crumbs) child (parts l) (stations l) (yields l)) :
      Records adapter crumbs note.met
        (first ++ ((adapter.children note.entered).located.flatMap fun p => parts p.1) ++ last)
        ((crumbs, note.entered) ::
          (adapter.children note.entered).located.flatMap fun p => stations p.1)
        (note.yield (!((adapter.children note.entered).located.flatMap fun p => parts p.1).isEmpty)
          ((adapter.children note.entered).spread fun l _ => yields l))

namespace Records

open Batch (carried carried_filter carried_eq_nil carried_append standing editsBelow
  surrounded edited)

section Parts

variable {c : Children N} (hc : c.roles.Nodup)

omit [Identified N] in
include hc in
theorem mem_parts {γ : Type} {parts : Location → List γ} {x : γ} :
    (x ∈ c.located.flatMap fun p => parts p.1) ↔
      ∃ l child, c.at? l = some child ∧ x ∈ parts l := by
  rw [List.mem_flatMap]
  constructor
  · rintro ⟨⟨l, child⟩, hp, hx⟩
    exact ⟨l, child, (Children.mem_located hc).mp hp, hx⟩
  · rintro ⟨l, child, hchild, hx⟩
    exact ⟨(l, child), (Children.mem_located hc).mpr hchild, hx⟩

omit [Identified N] in
include hc in
/-- An edit that was recorded is one of the position, or was recorded below some child. -/
theorem mem_record {first last : List (Zipper N)} {parts : Location → List (Zipper N)}
    {z : Zipper N} :
    z ∈ first ++ (c.located.flatMap fun p => parts p.1) ++ last ↔
      z ∈ first ++ last ∨ ∃ l child, c.at? l = some child ∧ z ∈ parts l := by
  rw [List.mem_append, List.mem_append, List.mem_append, mem_parts hc, or_right_comm]

end Parts

variable {adapter : Adapter σ N} {crumbs : List (Crumb N)} {met : N} {edits : List (Zipper N)}
  {stations : List (List (Crumb N) × N)} {yield : List (Sketch N)}

/-- All edits are at the position or below it. -/
theorem suffix (h : Records adapter crumbs met edits stations yield) {z : Zipper N}
    (hz : z ∈ edits) : crumbs <:+ z.crumbs := by
  induction h with
  | unreached => simp at hz
  | reached _ own roles _ ih =>
    rcases (mem_record roles).mp hz with hz | ⟨l, child, hchild, hz⟩
    · exact own.here z hz ▸ List.suffix_rfl
    · exact (List.suffix_cons _ _).trans (ih l child hchild hz)

/-- Crumbs of one length that are both the end of a way are the same. -/
theorem eq_of_suffix {α : Type} {xs ys zs : List α} (hx : xs <:+ zs) (hy : ys <:+ zs)
    (hlen : xs.length = ys.length) : xs = ys :=
  (List.suffix_of_suffix_length_le hx hy (Nat.le_of_eq hlen)).eq_of_length hlen

theorem not_cons_suffix {α : Type} {a : α} {xs : List α} : ¬a :: xs <:+ xs := fun h =>
  Nat.not_succ_le_self _ h.length_le

/-! ### What records mean -/

section Meaning

variable {zs : List (Zipper N)}

/-- The edits at a position or below it. -/
def within (crumbs : List (Crumb N)) (zs : List (Zipper N)) : List (Zipper N) :=
  zs.filter fun z => Crumb.way crumbs <:+ z.way

/-- Where a batch has no edits, the node stays. -/
theorem surrounded_of_none (hnone : within crumbs zs = []) (node : N) (levels : Nat) :
    surrounded zs (Crumb.way crumbs) (edited adapter zs levels (Crumb.way crumbs) node) =
      [.keep node] := by
  have houtside : ∀ z ∈ zs, ¬Crumb.way crumbs <:+ z.way := fun z hz hsuffix =>
    List.filter_eq_nil_iff.mp hnone z hz (decide_eq_true hsuffix)
  have hcarried : ∀ edit, carried zs (Crumb.way crumbs) edit = [] := fun edit =>
    carried_eq_nil fun z hz hway => absurd (hway ▸ List.suffix_rfl) (houtside z hz)
  have hstanding : standing zs (Crumb.way crumbs) node = node := by
    rw [standing, hcarried]
    rfl
  have hbelow : editsBelow zs node (Crumb.way crumbs) = false := by
    rw [Bool.eq_false_iff]
    intro hany
    obtain ⟨z, hz, hpasses⟩ := List.any_eq_true.mp hany
    obtain ⟨l, hl⟩ := Way.passes_iff.mp hpasses
    exact houtside z hz ((List.suffix_cons _ _).trans hl)
  rw [Batch.edited_of_not_below (by rw [hstanding]; exact hbelow), hstanding, surrounded, hcarried,
    hcarried, hcarried]
  rfl

section Reached

variable {note : Note N} {first last : List (Zipper N)} {parts : Location → List (Zipper N)}
  (own : note.Owns crumbs (first ++ last)) (roles : (adapter.children note.entered).roles.Nodup)
  (hparts : ∀ l child, (adapter.children note.entered).at? l = some child →
    ∀ z ∈ parts l, ⟨note.entered, l⟩ :: crumbs <:+ z.crumbs)
  (hzs : within crumbs zs =
    first ++ ((adapter.children note.entered).located.flatMap fun p => parts p.1) ++ last)

include own roles hparts hzs

/-- What was recorded below a child is what the batch has there. -/
theorem within_child {l : Location} {child : N}
    (hchild : (adapter.children note.entered).at? l = some child) :
    within (⟨note.entered, l⟩ :: crumbs) zs = parts l := by
  have hnarrow : within (⟨note.entered, l⟩ :: crumbs) zs =
      within (⟨note.entered, l⟩ :: crumbs) (within crumbs zs) := by
    rw [within, within, within, List.filter_filter]
    refine List.filter_congr fun z _ => ?_
    have hweaker : Crumb.way (⟨note.entered, l⟩ :: crumbs) <:+ z.way → Crumb.way crumbs <:+ z.way :=
      (List.suffix_cons _ _).trans
    rw [← Bool.decide_and, decide_eq_decide]
    exact ⟨fun h => ⟨h, hweaker h⟩, And.left⟩
  have hown : ∀ z ∈ first ++ last, ¬Crumb.way (⟨note.entered, l⟩ :: crumbs) <:+ z.way := by
    intro z hz hsuffix
    have hlen := hsuffix.length_le
    rw [Zipper.way, own.here z hz, Crumb.length_way, Crumb.length_way, List.length_cons] at hlen
    omega
  rw [hnarrow, hzs, within, List.filter_append, List.filter_append]
  have hfirst : first.filter (fun z => Crumb.way (⟨note.entered, l⟩ :: crumbs) <:+ z.way) = [] :=
    List.filter_eq_nil_iff.mpr fun z hz h => hown z (by simp [hz]) (of_decide_eq_true h)
  have hlast : last.filter (fun z => Crumb.way (⟨note.entered, l⟩ :: crumbs) <:+ z.way) = [] :=
    List.filter_eq_nil_iff.mpr fun z hz h => hown z (by simp [hz]) (of_decide_eq_true h)
  rw [hfirst, hlast, List.nil_append, List.append_nil]
  refine filter_flatMap_eq (Children.nodup_located roles)
    ((Children.mem_located roles).mpr hchild) (fun z hz => ?_) fun p hp hne z hz => ?_
  · exact decide_eq_true ((hparts l child hchild z hz).map Crumb.step)
  · have hother := (hparts p.1 p.2 ((Children.mem_located roles).mp hp) z hz).map Crumb.step
    refine decide_eq_false fun hsuffix => hne ?_
    have heq := eq_of_suffix hother hsuffix (by simp)
    exact (Prod.mk.inj (List.cons.inj heq).1).2

/-- What the batch has at a position is what was noted there. -/
theorem carried_own (edit : Edit) : carried zs (Crumb.way crumbs) edit = note.carried edit := by
  have hwithin : carried (within crumbs zs) (Crumb.way crumbs) edit =
      carried zs (Crumb.way crumbs) edit :=
    carried_filter fun z _ hway _ => decide_eq_true (hway ▸ List.suffix_rfl)
  have hbelow : carried ((adapter.children note.entered).located.flatMap fun p => parts p.1)
      (Crumb.way crumbs) edit = [] := by
    refine carried_eq_nil fun z hz hway => ?_
    obtain ⟨l, child, hchild, hz⟩ := (mem_parts roles).mp hz
    have hlen := (hparts l child hchild z hz).length_le
    have hsame := congrArg List.length hway
    rw [Zipper.length_way, Crumb.length_way, Zipper.depth] at hsame
    rw [hsame, List.length_cons] at hlen
    omega
  rw [← hwithin, hzs, carried_append, carried_append, hbelow, List.append_nil, ← carried_append,
    ← own.carried edit, carried]
  congr 1
  refine List.filter_congr fun z hz => ?_
  simp [Zipper.way, own.here z hz]

theorem standing_own :
    standing zs (Crumb.way crumbs) note.met = note.given.getD note.met := by
  rw [standing, carried_own own roles hparts hzs, Note.carried]
  cases note.given <;> rfl

/-- The batch edits something below a node if the node was entered, and something was recorded below
it. -/
theorem editsBelow_own (base : N) : editsBelow zs base (Crumb.way crumbs) = true ↔
      identity base = identity note.entered ∧
        ((adapter.children note.entered).located.flatMap fun p => parts p.1) ≠ [] := by
  simp only [editsBelow, List.any_eq_true, Way.passes_iff]
  constructor
  · rintro ⟨z, hz, l, hl⟩
    have hmem : z ∈ within crumbs zs :=
      List.mem_filter.mpr ⟨hz, decide_eq_true ((List.suffix_cons _ _).trans hl)⟩
    rw [hzs, mem_record roles] at hmem
    rcases hmem with hown | ⟨m, child, hchild, hpart⟩
    · have hlen := hl.length_le
      rw [Zipper.way, own.here z hown, List.length_cons] at hlen
      omega
    · have heq := eq_of_suffix ((hparts m child hchild z hpart).map Crumb.step) hl (by simp)
      have hid : identity note.entered = identity base := (Prod.mk.inj (List.cons.inj heq).1).1
      refine ⟨hid.symm, ?_⟩
      exact List.ne_nil_of_mem ((mem_parts roles).mpr ⟨m, child, hchild, hpart⟩)
  · rintro ⟨hid, hne⟩
    obtain ⟨z, hz⟩ := List.exists_mem_of_ne_nil _ hne
    obtain ⟨l, child, hchild, hpart⟩ := (mem_parts roles).mp hz
    have hmem : z ∈ within crumbs zs := by
      rw [hzs]
      simp [hz]
    refine ⟨z, (List.mem_filter.mp hmem).1, l, ?_⟩
    rw [hid]
    exact (hparts l child hchild z hpart).map Crumb.step

/-- A node that was given while leaving stands as it is: no edit runs through it. -/
theorem edited_late (sane : note.Sane) (hlate : note.late = true) (levels : Nat) :
    edited adapter zs levels (Crumb.way crumbs) note.met = .keep (note.given.getD note.met) := by
  have hstanding := standing_own own roles hparts hzs
  have hnot : ¬editsBelow zs (note.given.getD note.met) (Crumb.way crumbs) = true := fun h =>
    sane.late hlate ((editsBelow_own own roles hparts hzs _).mp h).1
  rw [Batch.edited_of_not_below (by rw [hstanding]; exact Bool.eq_false_iff.mpr hnot), hstanding]

/-- Any other node is edited below if something was recorded there. -/
theorem edited_early (sane : note.Sane) (hearly : note.late = false) {levels : Nat}
    (hdeep : ((adapter.children note.entered).located.flatMap fun p => parts p.1) ≠ [] →
      levels ≠ 0) {yields : Location → List (Sketch N)}
    (hyields : ∀ l child, (adapter.children note.entered).at? l = some child →
      surrounded zs (Crumb.way (⟨note.entered, l⟩ :: crumbs))
        (edited adapter zs (levels - 1) (Crumb.way (⟨note.entered, l⟩ :: crumbs)) child) =
          yields l) :
    edited adapter zs levels (Crumb.way crumbs) note.met =
      if !((adapter.children note.entered).located.flatMap fun p => parts p.1).isEmpty then
        .rebuild note.entered ((adapter.children note.entered).spread fun l _ => yields l)
      else
        .keep note.entered := by
  have hstanding : standing zs (Crumb.way crumbs) note.met = note.entered :=
    (standing_own own roles hparts hzs).trans (sane.early hearly).symm
  have hbelow := editsBelow_own own roles hparts hzs note.entered
  by_cases hnil : ((adapter.children note.entered).located.flatMap fun p => parts p.1) = []
  · have hnot : ¬editsBelow zs note.entered (Crumb.way crumbs) = true := fun h =>
      (hbelow.mp h).2 hnil
    rw [Batch.edited_of_not_below (by rw [hstanding]; exact Bool.eq_false_iff.mpr hnot), hstanding,
      hnil]
    rfl
  · obtain ⟨levels, rfl⟩ := Nat.exists_eq_succ_of_ne_zero (hdeep hnil)
    rw [edited, hstanding]
    simp only [hbelow.mpr ⟨rfl, hnil⟩, if_true]
    rw [if_pos (by simpa using hnil)]
    exact congrArg _ (Children.spread_congr roles hyields)

end Reached

/-- **What was recorded is what the batch means** at the position, all edits at once. -/
theorem surrounded_edited (h : Records adapter crumbs met edits stations yield)
    (hzs : within crumbs zs = edits) {levels : Nat}
    (hdeep : ∀ z ∈ edits, z.depth ≤ crumbs.length + levels) :
    surrounded zs (Crumb.way crumbs) (edited adapter zs levels (Crumb.way crumbs) met) = yield := by
  induction h generalizing levels with
  | unreached crumbs node => exact surrounded_of_none hzs node levels
  | @reached crumbs note first last parts stations yields sane own roles below ih =>
    have hparts : ∀ l child, (adapter.children note.entered).at? l = some child →
        ∀ z ∈ parts l, ⟨note.entered, l⟩ :: crumbs <:+ z.crumbs :=
      fun l child hchild z hz => (below l child hchild).suffix hz
    have hcarried := carried_own own roles hparts hzs
    have hlower : ∀ l child, (adapter.children note.entered).at? l = some child → ∀ z ∈ parts l,
        crumbs.length + 1 ≤ z.depth ∧ z.depth ≤ crumbs.length + levels := fun l child hchild z hz =>
      ⟨(hparts l child hchild z hz).length_le,
        hdeep z ((mem_record roles).mpr (.inr ⟨l, child, hchild, hz⟩))⟩
    rw [surrounded, hcarried, hcarried, hcarried, Note.yield]
    congr 2
    cases hdeleted : note.deleted with
    | true => simp [Note.carried, hdeleted]
    | false =>
      have hkept : (note.carried .delete).isEmpty = true := by simp [Note.carried, hdeleted]
      simp only [hkept, if_true, Bool.false_eq_true, if_false, List.cons.injEq, and_true]
      cases hlate : note.late with
      | true => exact edited_late own roles hparts hzs sane hlate levels
      | false =>
        refine edited_early own roles hparts hzs sane hlate (fun hne => ?_) fun l child hchild => ?_
        · obtain ⟨z, hz⟩ := List.exists_mem_of_ne_nil _ hne
          obtain ⟨l, child, hchild, hz⟩ := (mem_parts roles).mp hz
          have := hlower l child hchild z hz
          omega
        · refine ih l child hchild (within_child own roles hparts hzs hchild) fun z hz => ?_
          have := hlower l child hchild z hz
          rw [List.length_cons]
          omega

end Meaning

/-! ### Stations -/

/-- The nodes that edits run through are stations. -/
theorem mem_stations (h : Records adapter crumbs met edits stations yield) {z : Zipper N}
    (hz : z ∈ edits) {c : Crumb N} {above : List (Crumb N)} (hc : c :: above <:+ z.crumbs)
    (habove : crumbs <:+ above) : (above, c.node) ∈ stations := by
  induction h with
  | unreached => simp at hz
  | @reached crumbs note first last parts stations yields sane own roles below ih =>
    rcases (mem_record roles).mp hz with hz | ⟨l, child, hchild, hz⟩
    · rw [own.here z hz] at hc
      exact absurd (hc.trans habove) not_cons_suffix
    · have hway := (below l child hchild).suffix hz
      rcases Nat.lt_or_ge crumbs.length above.length with hlt | hge
      · refine List.mem_cons_of_mem _ ((mem_parts roles).mpr ⟨l, child, hchild, ?_⟩)
        refine ih l child hchild hz (List.suffix_of_suffix_length_le hway
          ((List.suffix_cons _ _).trans hc) ?_)
        rw [List.length_cons]
        omega
      · obtain rfl : crumbs = above := habove.eq_of_length_le hge
        have heq := eq_of_suffix hc hway (by simp)
        rw [(List.cons.inj heq).1]
        exact List.mem_cons_self

theorem station_suffix (h : Records adapter crumbs met edits stations yield)
    {station : List (Crumb N) × N} (hs : station ∈ stations) : crumbs <:+ station.1 := by
  induction h with
  | unreached => simp at hs
  | reached _ _ roles _ ih =>
    rcases List.mem_cons.mp hs with rfl | hs
    · exact List.suffix_rfl
    · obtain ⟨l, child, hchild, hs⟩ := (mem_parts roles).mp hs
      exact (List.suffix_cons _ _).trans (ih l child hchild hs)

/-- The stations below a node are those below its children. -/
theorem station_below {note : Note N} {parts : Location → List (Zipper N)}
    {places : Location → List (List (Crumb N) × N)} {yields : Location → List (Sketch N)}
    (roles : (adapter.children note.entered).roles.Nodup)
    (below : ∀ l child, (adapter.children note.entered).at? l = some child →
      Records adapter (⟨note.entered, l⟩ :: crumbs) child (parts l) (places l) (yields l))
    {station : List (Crumb N) × N}
    (hs : station ∈ (crumbs, note.entered) ::
      (adapter.children note.entered).located.flatMap fun p => places p.1) :
    station = (crumbs, note.entered) ∨ ∃ l child,
      (adapter.children note.entered).at? l = some child ∧ station ∈ places l ∧
        ⟨note.entered, l⟩ :: crumbs <:+ station.1 := by
  rcases List.mem_cons.mp hs with rfl | hs
  · exact .inl rfl
  · obtain ⟨l, child, hchild, hs⟩ := (mem_parts roles).mp hs
    exact .inr ⟨l, child, hchild, hs, (below l child hchild).station_suffix hs⟩

/-- At one position there is one station. -/
theorem station_unique (h : Records adapter crumbs met edits stations yield)
    {here : List (Crumb N)} {m n : N} (hm : (here, m) ∈ stations) (hn : (here, n) ∈ stations) :
    m = n := by
  induction h with
  | unreached => simp at hm
  | @reached crumbs note first last parts places yields sane own roles below ih =>
    rcases station_below roles below hm with heq | ⟨l, child, hchild, hm, hl⟩ <;>
      rcases station_below roles below hn with heq' | ⟨l', child', hchild', hn, hl'⟩
    · exact (Prod.mk.inj heq).2.trans (Prod.mk.inj heq').2.symm
    · rw [(Prod.mk.inj heq).1] at hl'
      exact absurd hl' not_cons_suffix
    · rw [(Prod.mk.inj heq').1] at hl
      exact absurd hl not_cons_suffix
    · have heq := eq_of_suffix hl hl' (by simp)
      obtain rfl : l = l' := (Crumb.mk.inj (List.cons.inj heq).1).2
      exact ih l child hchild hm hn

/-- Edits run through a replacement only if it was given on entering, and then it is the station. -/
theorem eq_of_replace (h : Records adapter crumbs met edits stations yield) {z : Zipper N}
    (hz : z ∈ edits) (hedit : z.edit = .replace) {n : N} (hn : (z.crumbs, n) ∈ stations)
    (hid : identity n = identity z.node) : n = z.node := by
  induction h with
  | unreached => simp at hz
  | @reached crumbs note first last parts places yields sane own roles below ih =>
    rcases (mem_record roles).mp hz with hz | ⟨l, child, hchild, hz⟩
    · have hgiven : z.node ∈ note.carried .replace := by
        rw [← own.carried .replace]
        exact List.mem_map.mpr ⟨z, List.mem_filter.mpr ⟨hz, decide_eq_true hedit⟩, rfl⟩
      replace hgiven : note.given = some z.node := Option.mem_toList.mp hgiven
      rw [own.here z hz] at hn
      rcases station_below roles below hn with heq | ⟨l, child, hchild, -, hl⟩
      · obtain rfl : n = note.entered := (Prod.mk.inj heq).2
        cases hlate : note.late with
        | true =>
          have hne := sane.late hlate
          rw [hgiven] at hne
          exact absurd hid.symm hne
        | false =>
          rw [sane.early hlate, hgiven]
          rfl
      · exact absurd hl not_cons_suffix
    · have hway := (below l child hchild).suffix hz
      rcases station_below roles below hn with heq | ⟨l', child', hchild', hn, hl'⟩
      · rw [(Prod.mk.inj heq).1] at hway
        exact absurd hway not_cons_suffix
      · have heq := eq_of_suffix hway hl' (by simp)
        obtain rfl : l = l' := (Crumb.mk.inj (List.cons.inj heq).1).2
        exact ih l child hchild hz hn

/-! ### Recorded batches -/

/-- Every edit is at a position of the tree, or below one that is replaced. -/
theorem reaches (h : Records adapter crumbs met edits stations yield) {b : Batch N}
    (hmet : b.Reaches adapter crumbs met) (hsub : ∀ z ∈ edits, z ∈ b.zippers) {z : Zipper N}
    (hz : z ∈ edits) : ∃ node, b.Reaches adapter z.crumbs node := by
  induction h with
  | unreached => simp at hz
  | @reached crumbs note first last parts places yields sane own roles below ih =>
    rcases (mem_record roles).mp hz with hz | ⟨l, child, hchild, hz⟩
    · exact ⟨note.met, own.here z hz ▸ hmet⟩
    · refine ih l child hchild ?_ (fun y hy => hsub y ?_) hz
      · cases hgiven : note.given with
        | none =>
          rw [sane.kept hgiven] at hchild ⊢
          exact .down hmet hchild
        | some given =>
          have hmem : given ∈ ((first ++ last).filter fun z => z.edit = .replace).map
            Zipper.node := by
            rw [own.carried .replace, Note.carried, hgiven]
            exact List.mem_singleton_self given
          obtain ⟨y, hy, -⟩ := List.mem_map.mp hmem
          obtain ⟨hy, hedit⟩ := List.mem_filter.mp hy
          exact .through hmet (hsub y ((mem_record roles).mpr (.inl hy))) (of_decide_eq_true hedit)
            (own.here y hy) hchild
      · exact (mem_record roles).mpr (.inr ⟨l, child, hchild, hy⟩)

/-- No position is replaced or deleted twice. -/
theorem once (h : Records adapter crumbs met edits stations yield) :
    edits.Pairwise fun y z =>
      y.edit.inserts = false → z.edit.inserts = false → y.way ≠ z.way := by
  induction h with
  | unreached => exact .nil
  | @reached crumbs note first last parts places yields sane own roles below ih =>
    -- edits below run through more nodes
    have hapart : ∀ y ∈ first ++ last,
        ∀ z ∈ (adapter.children note.entered).located.flatMap fun p => parts p.1,
          y.way ≠ z.way := by
      intro y hy z hz heq
      obtain ⟨l, child, hchild, hz⟩ := (mem_parts roles).mp hz
      have hlen := ((below l child hchild).suffix hz).length_le
      have hsame := congrArg List.length heq
      rw [Zipper.length_way, Zipper.length_way, Zipper.depth, Zipper.depth, own.here y hy] at hsame
      rw [List.length_cons] at hlen
      omega
    have hbelow : ((adapter.children note.entered).located.flatMap fun p => parts p.1).Pairwise
        fun y z => y.edit.inserts = false → z.edit.inserts = false → y.way ≠ z.way := by
      refine List.pairwise_flatMap.mpr ⟨fun p hp => ?_, ?_⟩
      · exact ih p.1 p.2 ((Children.mem_located roles).mp hp)
      · refine (List.pairwise_map.mp (Children.nodup_located roles)).imp_of_mem
          fun {p q} hp hq hne y hy z hz _ _ heq => hne ?_
        have hy := ((below p.1 p.2 ((Children.mem_located roles).mp hp)).suffix hy).map Crumb.step
        have hz := ((below q.1 q.2 ((Children.mem_located roles).mp hq)).suffix hz).map Crumb.step
        have hway : z.crumbs.map Crumb.step = y.crumbs.map Crumb.step := heq.symm
        rw [hway] at hz
        exact (Prod.mk.inj (List.cons.inj (eq_of_suffix hy hz (by simp))).1).2
    obtain ⟨hfirst, hlast, hboth⟩ := List.pairwise_append.mp (own.once sane)
    refine List.pairwise_append.mpr ⟨List.pairwise_append.mpr ⟨hfirst, hbelow, ?_⟩, hlast, ?_⟩
    · exact fun y hy z hz _ _ => hapart y (by simp [hy]) z hz
    · intro y hy z hz
      rcases List.mem_append.mp hy with hy | hy
      · exact hboth y hy z hz
      · exact fun _ _ => (hapart z (by simp [hz]) y hy).symm

section Root

variable {root : N} (h : Records adapter [] root edits stations yield)
  (hdistinct : (stations.map fun s => identity s.2).Nodup)
  (hlawful : ∀ s ∈ stations, adapter.LawfulAt s.2)
  (hfits : ∀ s ∈ stations, ∀ r list, (adapter.children s.2).get? r = some list →
    list.length + edits.length < 9223372036854775808)
  (halone : ∀ z ∈ edits, z.crumbs = [] → z.edit.inserts = false)
  (hdeleted : ∀ z ∈ edits, z.crumbs = [] → z.edit = .delete → edits = [z])

include h hdistinct hlawful hfits halone hdeleted

/-- What was recorded **goes together**, if no identity occurs twice among the stations. -/
theorem coherent : Batch.Coherent adapter ⟨root, edits⟩ := by
  have hstation : ∀ z ∈ edits, ∀ (c : Crumb N) (above : List (Crumb N)), c :: above <:+ z.crumbs →
      (above, c.node) ∈ stations :=
    fun z hz c above hc => h.mem_stations hz hc List.nil_suffix
  have hcrumb : ∀ z ∈ edits, ∀ c ∈ z.crumbs, ∃ above, (above, c.node) ∈ stations := by
    intro z hz c hc
    obtain ⟨above, hsuffix⟩ := Batch.exists_suffix hc
    exact ⟨above, hstation z hz c above hsuffix⟩
  refine { reached := ?_, once := h.once, fresh := ?_, rootAlone := halone, rootDeleted := hdeleted,
           sided := ?_, lawful := ?_, fits := ?_, apart := ?_ }
  · exact fun z hz => h.reaches (b := ⟨root, edits⟩) .root (fun _ hy => hy) hz
  · exact fun z hz hedit y hy c hc hid => h.eq_of_replace hz hedit (hstation y hy c _ hc) hid
  · intro z hz _ x hx y hy c d hc hd
    exact congrArg identity (h.station_unique (hstation x hx c _ hc) (hstation y hy d _ hd))
  · intro z hz c hc
    obtain ⟨above, hmem⟩ := hcrumb z hz c hc
    exact hlawful _ hmem
  · intro z hz c hc
    obtain ⟨above, hmem⟩ := hcrumb z hz c hc
    exact hfits _ hmem
  · intro y hy z hz c d above beyond hc hd _ hid
    have heq := List.inj_on_of_nodup_map hdistinct (hstation y hy c above hc)
      (hstation z hz d beyond hd) hid
    exact ⟨(Prod.mk.inj heq).2, (Prod.mk.inj heq).1⟩

omit hdistinct hlawful hfits hdeleted in
/-- What stands in place of the root is the tree after all edits at once. -/
theorem toList_simultaneous :
    (Batch.simultaneous adapter ⟨root, edits⟩).toList = yield := by
  have hall : within [] edits = edits :=
    List.filter_eq_self.mpr fun z _ => decide_eq_true List.nil_suffix
  have hdeep : ∀ z ∈ edits, z.depth ≤ ([] : List (Crumb N)).length + Batch.height edits :=
      fun z hz => by
    rw [List.length_nil, Nat.zero_add]
    exact Batch.depth_le_height hz
  have hyield := h.surrounded_edited hall hdeep
  have hnone : ∀ edit : Edit, edit.inserts = true → carried edits [] edit = [] :=
    fun edit hins => carried_eq_nil fun z hz hway hedit => by
      have hroot := halone z hz (List.map_eq_nil_iff.mp hway)
      rw [hedit, hins] at hroot
      exact absurd hroot (by decide)
  rw [← hyield, Crumb.way_nil, surrounded, hnone .insertBefore rfl, hnone .insertAfter rfl,
    Batch.simultaneous]
  split <;> simp

/-- **Applying what was recorded** gives what was yielded. -/
theorem toRoot (s : σ) :
    ∃ result s', (Batch.toRoot adapter ⟨root, edits⟩).runWith s = (.ok result, s') ∧
      List.Forall₂ (Sketch.Shows adapter) yield result.toList := by
  have hyield := h.toList_simultaneous halone
  rw [← hyield]
  by_cases hnil : edits = []
  · refine ⟨some root, s, Batch.toRoot_of_nil adapter hnil s, ?_⟩
    rw [Batch.simultaneous_of_nil adapter hnil]
    exact .cons (.keep root) .nil
  · have hcoherent := h.coherent hdistinct hlawful hfits halone hdeleted
    obtain ⟨result, s', hrun, hrel⟩ := hcoherent.toRoot_of_ne_nil hnil s
    refine ⟨result, s', hrun, ?_⟩
    generalize Batch.simultaneous adapter ⟨root, edits⟩ = sketch at hrel ⊢
    cases hrel with
    | none => exact .nil
    | some hshows => exact .cons hshows .nil

end Root

end Records

end Arborist
