import Arborist.Traversal.Walk
import Mathlib

/-!
# Positions of contexts

Every context of a walk stands at a **position**: the locations that lead from it up to the root.
The links of a tidy arena lead to earlier contexts, and no two contexts hang in one place, so the
position tells contexts apart (`Arena.Tidy.position_inj`). Callbacks leave links alone, and
expanding a node adds contexts at new places, so positions never change
(`Arena.Tidy.position_congr`).
-/

namespace Arborist

variable {N A κ : Type} {β : κ → Type}

/-- The **position** of a context: the locations from it up to the root, nearest first. -/
def Arena.position (arena : Arena N A β) (c : Context N A β) : List Location :=
  (arena.ancestors c).map Prod.fst

/-- The position of an edit. -/
def Zipper.position (z : Zipper N) : List Location :=
  z.crumbs.map Crumb.location

@[simp] theorem Arena.map_location_crumbs (arena : Arena N A β) (c : Context N A β) :
    (arena.crumbs c).map Crumb.location = arena.position c := by
  rw [crumbs, List.map_map]
  rfl

/-- An arena is **tidy** if contexts hang below earlier ones, each in a place of its own. -/
structure Arena.Tidy (arena : Arena N A β) : Prop where
  before : ∀ {id : Nat} {c : Context N A β} {link : Link}, arena[id]? = some c →
    c.link = some link → link.parent < id
  distinct : ∀ {id id' : Nat} {c c' : Context N A β}, arena[id]? = some c →
    arena[id']? = some c' → c.link = c'.link → id = id'

namespace Arena

variable {arena arena' : Arena N A β} {id : Nat} {c : Context N A β}

theorem lt_size_of_getElem? (h : arena[id]? = some c) : id < arena.size :=
  (Array.getElem?_eq_some_iff.mp h).1

/-- Only the context that is there is changed. -/
theorem modify_eq (hc : arena[id]? = some c) (f : Context N A β → Context N A β) :
    arena.modify id f = arena.modify id fun _ => f c := by
  apply Array.ext_getElem?
  intro j
  rw [Array.getElem?_modify, Array.getElem?_modify]
  split
  · next hid =>
    subst hid
    rw [hc]
    rfl
  · rfl

theorem modify_self (hc : arena[id]? = some c) : (arena.modify id fun _ => c) = arena := by
  apply Array.ext_getElem?
  intro j
  rw [← modify_eq hc fun d => d, Array.getElem?_modify]
  split
  · exact Option.map_id_apply
  · rfl

/-- The contexts of an arena to which some were added. -/
theorem append_cases {found : List (Context N A β)} (h : (arena ++ found.toArray)[id]? = some c) :
    arena[id]? = some c ∨ arena.size ≤ id ∧ found[id - arena.size]? = some c := by
  rw [Array.getElem?_append] at h
  split at h
  · exact .inl h
  · next hid => exact .inr ⟨Nat.le_of_not_lt hid, by simpa using h⟩

/-- Two arenas have the same **links** up to a place. -/
def SameLinks (k : Nat) (arena arena' : Arena N A β) : Prop :=
  ∀ j < k, (arena'[j]?).map Context.link = (arena[j]?).map Context.link

theorem SameLinks.exists_eq {k j : Nat} (h : SameLinks k arena arena') (hj : j < k)
    (hc : arena[j]? = some c) : ∃ c', arena'[j]? = some c' ∧ c'.link = c.link := by
  have hlink := h j hj
  rw [hc] at hlink
  exact Option.map_eq_some_iff.mp hlink

theorem sameLinks_modify {f : Context N A β → Context N A β} (k : Nat)
    (hf : ∀ c, arena[id]? = some c → (f c).link = c.link) :
    SameLinks k arena (arena.modify id f) := by
  intro j _
  rw [Array.getElem?_modify]
  split
  · next hid =>
    subst hid
    cases hc : arena[id]? with
    | none => rfl
    | some c => exact congrArg some (hf c hc)
  · rfl

namespace Tidy

/-- What is found above goes by the links before, however far it is climbed. -/
theorem climb_congr (htidy : arena.Tidy) {k : Nat} (hsame : SameLinks k arena arena') {n m : Nat}
    {link : Option Link} (hlink : ∀ l ∈ link, l.parent < k ∧ l.parent < n ∧ l.parent < m) :
    (arena'.climb m link).map Prod.fst = (arena.climb n link).map Prod.fst := by
  induction n generalizing m link with
  | zero =>
    cases link with
    | none => cases m <;> rfl
    | some l => exact absurd (hlink l rfl).2.1 (Nat.not_lt_zero _)
  | succ n ih =>
    cases link with
    | none => cases m <;> rfl
    | some l =>
      obtain ⟨hk, hn, hm⟩ := hlink l rfl
      cases m with
      | zero => exact absurd hm (Nat.not_lt_zero _)
      | succ m =>
        rw [climb, climb]
        cases hc : arena[l.parent]? with
        | none =>
          have hnone := hsame l.parent hk
          rw [hc, Option.map_none, Option.map_eq_none_iff] at hnone
          rw [hnone]
        | some c =>
          obtain ⟨c', hc', hlink'⟩ := hsame.exists_eq hk hc
          rw [hc', List.map_cons, List.map_cons, hlink']
          refine congrArg (l.location :: ·) (ih fun l' hl' => ?_)
          have hbefore := htidy.before hc hl'
          omega

/-- **Positions stay**: they go by the links. -/
theorem position_congr (htidy : arena.Tidy) (hsame : SameLinks arena.size arena arena')
    (hsize : arena.size ≤ arena'.size) (hc : arena[id]? = some c) {c' : Context N A β}
    (hlink : c'.link = c.link) : arena'.position c' = arena.position c := by
  rw [position, position, ancestors, ancestors, hlink]
  refine htidy.climb_congr hsame fun l hl => ?_
  have hbefore := htidy.before hc hl
  have hid := lt_size_of_getElem? hc
  omega

theorem position_root (c : Context N A β) (hlink : c.link = none) : arena.position c = [] := by
  rw [position, ancestors, hlink]
  cases arena.size <;> rfl

/-- A context stands below its parent. -/
theorem position_link (htidy : arena.Tidy) {l : Link} (hc : arena[id]? = some c)
    (hlink : c.link = some l) :
    ∃ p, arena[l.parent]? = some p ∧ arena.position c = l.location :: arena.position p := by
  have hid := lt_size_of_getElem? hc
  have hbefore := htidy.before hc hlink
  obtain ⟨p, hp⟩ : ∃ p, arena[l.parent]? = some p :=
    ⟨_, Array.getElem?_eq_getElem (Nat.lt_trans hbefore hid)⟩
  refine ⟨p, hp, ?_⟩
  obtain ⟨n, hn⟩ : ∃ n, arena.size = n + 1 := Nat.exists_eq_succ_of_ne_zero (by omega)
  rw [position, ancestors, hlink, hn, climb, hp, List.map_cons]
  have hself : SameLinks l.parent arena arena := fun _ _ => rfl
  refine congrArg (l.location :: ·) (htidy.climb_congr hself fun l' hl' => ?_)
  have hbefore' := htidy.before hp hl'
  omega

/-- **Positions tell contexts apart.** -/
theorem position_inj (htidy : arena.Tidy) {id' : Nat} {c' : Context N A β}
    (hc : arena[id]? = some c)
    (hc' : arena[id']? = some c') (h : arena.position c = arena.position c') : id = id' := by
  induction id using Nat.strongRecOn generalizing id' c c' with
  | ind id ih =>
    refine htidy.distinct hc hc' ?_
    cases hlink : c.link with
    | none =>
      cases hlink' : c'.link with
      | none => rfl
      | some l' =>
        obtain ⟨p', -, hposition⟩ := htidy.position_link hc' hlink'
        rw [position_root c hlink, hposition] at h
        cases h
    | some l =>
      obtain ⟨p, hp, hposition⟩ := htidy.position_link hc hlink
      cases hlink' : c'.link with
      | none =>
        rw [position_root c' hlink', hposition] at h
        cases h
      | some l' =>
        obtain ⟨p', hp', hposition'⟩ := htidy.position_link hc' hlink'
        rw [hposition, hposition'] at h
        obtain ⟨hlocation, habove⟩ := List.cons.inj h
        have hparent := ih l.parent (htidy.before hc hlink) hp hp' habove
        rw [show l = l' by cases l; cases l'; simp_all]

/-- Links are all that matters. -/
theorem of_sameLinks (htidy : arena.Tidy) (hsize : arena'.size = arena.size)
    (hsame : SameLinks arena.size arena arena') : arena'.Tidy := by
  have hback : ∀ {id : Nat} {c' : Context N A β}, arena'[id]? = some c' →
      ∃ c, arena[id]? = some c ∧ c'.link = c.link := by
    intro id c' hc'
    have hid := lt_size_of_getElem? hc'
    rw [hsize] at hid
    have hlink := hsame id hid
    rw [hc', Array.getElem?_eq_getElem hid] at hlink
    exact ⟨_, Array.getElem?_eq_getElem hid, Option.some.inj hlink⟩
  refine ⟨fun hc hlink => ?_, fun hc hc' hlink => ?_⟩
  · obtain ⟨c₀, hc₀, hlink₀⟩ := hback hc
    exact htidy.before hc₀ (hlink₀ ▸ hlink)
  · obtain ⟨c₀, hc₀, hlink₀⟩ := hback hc
    obtain ⟨c₁, hc₁, hlink₁⟩ := hback hc'
    exact htidy.distinct hc₀ hc₁ (hlink₀ ▸ hlink₁ ▸ hlink)

/-- New contexts below one that had none. -/
theorem append (htidy : arena.Tidy) {found : List (Context N A β)} (hid : id < arena.size)
    (hfound : ∀ c ∈ found, ∃ location, c.link = some ⟨id, location⟩)
    (hnodup : (found.map Context.link).Nodup)
    (hbare : ∀ {j : Nat} {c : Context N A β} {l : Link}, arena[j]? = some c → c.link = some l →
      l.parent ≠ id) :
    Tidy (arena ++ found.toArray) := by
  have hnew : ∀ {j : Nat} {c : Context N A β}, found[j]? = some c →
      ∃ location, c.link = some ⟨id, location⟩ :=
    fun hc => hfound _ (List.mem_of_getElem? hc)
  refine ⟨fun hc hlink => ?_, fun {i j c c'} hc hc' hlink => ?_⟩
  · rcases append_cases hc with hc | ⟨hj, hc⟩
    · exact htidy.before hc hlink
    · obtain ⟨location, hlocation⟩ := hnew hc
      obtain rfl := Option.some.inj (hlocation.symm.trans hlink)
      exact Nat.lt_of_lt_of_le hid hj
  · rcases append_cases hc with hc | ⟨hj, hc⟩ <;> rcases append_cases hc' with hc' | ⟨hj', hc'⟩
    · exact htidy.distinct hc hc' hlink
    · obtain ⟨location, hlocation⟩ := hnew hc'
      exact absurd rfl (hbare hc (hlink.trans hlocation))
    · obtain ⟨location, hlocation⟩ := hnew hc
      exact absurd rfl (hbare hc' (hlink.symm.trans hlocation))
    · -- both are new, so their locations differ
      obtain ⟨hi, hfirst⟩ := List.getElem?_eq_some_iff.mp hc
      obtain ⟨hi', hsecond⟩ := List.getElem?_eq_some_iff.mp hc'
      have hmap : i - arena.size < (found.map Context.link).length := by simpa using hi
      have hmap' : j - arena.size < (found.map Context.link).length := by simpa using hi'
      have heq : (found.map Context.link)[i - arena.size] =
          (found.map Context.link)[j - arena.size] := by
        rw [List.getElem_map, List.getElem_map, hfirst, hsecond, hlink]
      have hindex := hnodup.getElem_inj_iff.mp heq
      omega

end Tidy

end Arena

end Arborist
