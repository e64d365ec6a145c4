import Arborist.Proofs.Likeness
import Arborist.Proofs.OperationDepth

/-!
# Nodes of documents that read the same

In two documents that read the same, every node of the one has its **counterpart** in the other: the
node at the same place. If neither document shares nodes, this goes both ways, and a walk that computes
depths does the same on counterparts (`visits_alike`). So it comes to the same depth or to the same
error (`ofOperation_congr`).

* `Counterpart` leads from the operations and from the fragments of one name down to selections at
  the same position.
* `Counterpart.id_iff`: two nodes are one exactly if their counterparts are one. A node that is not
  shared is a selection of one node only (`parent_unique`).
* `Likewise` relates what two recursions come to. It goes through sequences (`Likewise.bind`) and
  lists (`Likewise.mapM`), so two visits are compared along their definition.
-/

namespace Arborist.Analysis.Depth

open Query Traversal

/-! ### Counterparts -/

/-- Nodes at the **same place** of two documents. -/
inductive Counterpart (d d' : Document) (o o' : Ref Operation) : Handle → Handle → Prop
  | operation : Counterpart d d' o o' o.ofOperation o'.ofOperation
  | fragment {name : String} {f f' : Ref Fragment} (hf : Dict.find? name d.fragments = some f)
      (hf' : Dict.find? name d'.fragments = some f') :
      Counterpart d d' o o' f.ofFragment f'.ofFragment
  | selection {h h' n n' : Handle} {i : Nat} (above : Counterpart d d' o o' h h')
      (hn : (selectionHandles h.value.selections)[i]? = some n)
      (hn' : (selectionHandles h'.value.selections)[i]? = some n') : Counterpart d d' o o' n n'

/-- The selections of a node by their positions. -/
theorem getElem?_selectionHandles (b : Block Selection) (i : Nat) :
    (selectionHandles b)[i]? = b.items[i]?.map fun s => ⟨⟨b.label, i⟩, .selection s⟩ := by
  rw [selectionHandles, Block.handles, Block.refs, List.getElem?_map, List.getElem?_mapIdx,
    Option.map_map]
  rfl

theorem eq_of_getElem?_selectionHandles {b : Block Selection} {i : Nat} {n : Handle}
    (h : (selectionHandles b)[i]? = some n) :
    ∃ s, b.items[i]? = some s ∧ n = ⟨⟨b.label, i⟩, .selection s⟩ := by
  rw [getElem?_selectionHandles] at h
  obtain ⟨s, hs, rfl⟩ := Option.map_eq_some_iff.mp h
  exact ⟨s, hs, rfl⟩

section Counterpart

variable {d d' : Document} {o o' : Ref Operation} {h h' a a' b b' : Handle}

namespace Counterpart

theorem symm (hc : Counterpart d d' o o' h h') : Counterpart d' d o' o h' h := by
  induction hc with
  | operation => exact .operation
  | fragment hf hf' => exact .fragment hf' hf
  | selection _ hn hn' ih => exact .selection ih hn' hn

theorem mem_nodes (hc : Counterpart d d' o o' h h') : h ∈ d.nodes o := by
  induction hc with
  | operation => exact operation_mem_nodes d o
  | fragment hf _ => exact Document.fragment_mem_nodes o hf
  | selection _ hn _ ih => exact Document.selections_mem_nodes ih (List.mem_of_getElem? hn)

end Counterpart

/-- In an unshared document, no node is a selection of two nodes. -/
theorem parent_unique (hunshared : d.Unshared o) {n m k : Handle} (hn : n ∈ d.nodes o)
    (hm : m ∈ d.nodes o) (hkn : k ∈ selectionHandles n.value.selections)
    (hkm : k ∈ selectionHandles m.value.selections) : n = m := by
  have hperm : ((d.nodes o).flatMap fun n => selectionHandles n.value.selections).Perm
      ((o.ofOperation :: d.fragments.map fun e => e.2.ofFragment).flatMap fun h =>
        h.value.inner) := by
    rw [Document.nodes, List.flatMap_assoc]
    exact List.Perm.flatMap_left _ fun h _ => h.perm_inner
  have hnodes : (d.nodes o).Nodup := .of_map _ hunshared
  have hinner : ((o.ofOperation :: d.fragments.map fun e => e.2.ofFragment).flatMap fun h =>
      h.value.inner).Nodup :=
    hnodes.sublist (List.Sublist.flatMap_right _ fun h _ => List.sublist_cons_self h _)
  have hpairwise := (List.nodup_flatMap.mp (hperm.nodup_iff.mpr hinner)).2
  by_contra hne
  have : Std.Symm (Function.onFun List.Disjoint fun n : Handle =>
      selectionHandles n.value.selections) := ⟨fun _ _ => List.Disjoint.symm⟩
  exact hpairwise.forall hn hm hne hkn hkm

namespace Counterpart

/-- A node has **one counterpart**. -/
theorem unique (hunshared : d.Unshared o) (ha : Counterpart d d' o o' h a)
    (hb : Counterpart d d' o o' h b) : a = b := by
  induction ha generalizing b with
  | operation =>
    generalize hroot : o.ofOperation = root at hb
    cases hb with
    | operation => rfl
    | fragment => cases congrArg Ref.value hroot
    | selection _ hn _ =>
      obtain ⟨s, -, rfl⟩ := eq_of_getElem?_selectionHandles hn
      cases congrArg Ref.value hroot
  | @fragment name f f' hf hf' =>
    generalize hroot : f.ofFragment = root at hb
    cases hb with
    | operation => cases congrArg Ref.value hroot
    | @fragment other g g' hg hg' =>
      have hvalue : f.value = g.value := by
        simpa [Ref.ofFragment, Ref.map] using congrArg Ref.value hroot
      obtain rfl : name = other := by
        rw [← d.selfNamed.name_of_find? hf, ← d.selfNamed.name_of_find? hg, hvalue]
      rw [Option.some.inj (hf'.symm.trans hg')]
    | selection _ hn _ =>
      obtain ⟨s, -, rfl⟩ := eq_of_getElem?_selectionHandles hn
      cases congrArg Ref.value hroot
  | @selection p p' n n' i above hn hn' ih =>
    obtain ⟨s, -, hs⟩ := eq_of_getElem?_selectionHandles hn
    cases hb with
    | operation => cases congrArg Ref.value hs
    | fragment => cases congrArg Ref.value hs
    | @selection q q' _ m' j above' hm hm' =>
      obtain rfl := parent_unique hunshared above.mem_nodes above'.mem_nodes
        (List.mem_of_getElem? hn) (List.mem_of_getElem? hm)
      obtain rfl := ih above'
      obtain ⟨t, -, ht⟩ := eq_of_getElem?_selectionHandles hm
      obtain rfl : i = j := congrArg (fun n : Handle => n.id.offset) (hs.symm.trans ht)
      exact Option.some.inj (hn'.symm.trans hm')

/-- Two nodes are **one** exactly if their counterparts are. -/
theorem id_iff (hunshared : d.Unshared o) (hunshared' : d'.Unshared o')
    (ha : Counterpart d d' o o' a a') (hb : Counterpart d d' o o' b b') :
    a.id = b.id ↔ a'.id = b'.id := by
  constructor
  · intro hid
    obtain rfl := Coherent.of_nodup hunshared a ha.mem_nodes b hb.mem_nodes hid
    rw [ha.unique hunshared hb]
  · intro hid
    obtain rfl := Coherent.of_nodup hunshared' a' ha.symm.mem_nodes b' hb.symm.mem_nodes hid
    rw [ha.symm.unique hunshared' hb.symm]

end Counterpart

/-! ### What counterparts read -/

theorem Element.selections_erase (e : Element) :
    Selection.eraseList e.selections.items = e.erase.selections.items := by
  rcases e with _ | (_ | _) | _ | (_ | _ | _) | _ | _ <;> rfl

theorem Element.spread?_erase (e : Element) : e.erase.spread? = e.spread? := by
  rcases e with _ | (_ | _) | _ | (_ | _ | _) | _ | _ <;> rfl

theorem depthOf_erase (e : Element) (inner : Nat) : depthOf e.erase inner = depthOf e inner := by
  rcases e with _ | (_ | _) | _ | (_ | _ | _) | _ | _ <;> rfl

theorem remember_erase (e : Element) (inner : Nat) (memo : Dict Nat) :
    remember e.erase inner memo = remember e inner memo := by
  rcases e with _ | (_ | _) | _ | (_ | _ | _) | _ | _ <;> rfl

/-- What reads like a fragment is a fragment. -/
theorem Element.eq_fragment_of_erase {e : Element} {f : Fragment}
    (h : e.erase = (Element.definition (.fragment f)).erase) :
    ∃ f', e = .definition (.fragment f') ∧ f'.name = f.name := by
  rcases e with _ | (_ | f') | _ | _ | _ | _
  case definition.fragment =>
    obtain h := Definition.fragment.inj (Element.definition.inj h)
    exact ⟨f', rfl, Fragment.name_congr h⟩
  all_goals cases h

theorem find?_fragments_congr (hd : d'.erase = d.erase) (name : String) :
    (Dict.find? name d'.fragments).map (·.value.erase) =
      (Dict.find? name d.fragments).map (·.value.erase) := by
  rw [← Dict.find?_mapValues (fun f : Ref Fragment => f.value.erase), Document.fragments_congr hd,
    Dict.find?_mapValues]

/-- A fragment is found in both documents or in none. -/
theorem find?_fragments_cases (hd : d'.erase = d.erase) (name : String) :
    (Dict.find? name d.fragments = none ∧ Dict.find? name d'.fragments = none) ∨
      ∃ f f', Dict.find? name d.fragments = some f ∧ Dict.find? name d'.fragments = some f' ∧
        f'.value.erase = f.value.erase := by
  have hcongr := find?_fragments_congr hd name
  cases hf : Dict.find? name d.fragments with
  | none =>
    rw [hf, Option.map_none, Option.map_eq_none_iff] at hcongr
    exact .inl ⟨rfl, hcongr⟩
  | some f =>
    rw [hf, Option.map_some] at hcongr
    obtain ⟨f', hf', hreads⟩ := Option.map_eq_some_iff.mp hcongr
    exact .inr ⟨f, f', rfl, hf', hreads⟩

/-- Counterparts **read the same**. -/
theorem Counterpart.reads (hd : d'.erase = d.erase) (ho : o'.value.erase = o.value.erase)
    (hc : Counterpart d d' o o' h h') : h'.value.erase = h.value.erase := by
  induction hc with
  | operation => exact congrArg (fun o => Element.definition (.operation o)) ho
  | @fragment name f f' hf hf' =>
    have hcongr := find?_fragments_congr hd name
    rw [hf, hf'] at hcongr
    exact congrArg (fun f => Element.definition (.fragment f)) (Option.some.inj hcongr)
  | @selection p p' n n' i _ hn hn' ih =>
    obtain ⟨s, hs, rfl⟩ := eq_of_getElem?_selectionHandles hn
    obtain ⟨s', hs', rfl⟩ := eq_of_getElem?_selectionHandles hn'
    have hitems : Selection.eraseList p'.value.selections.items =
        Selection.eraseList p.value.selections.items := by
      rw [Element.selections_erase, Element.selections_erase, ih]
    have hread := congrArg (·[i]?) hitems
    simp only [Selection.eraseList_eq_map, List.getElem?_map, hs, hs', Option.map_some] at hread
    exact congrArg Element.selection (Option.some.inj hread)

theorem Counterpart.spread?_eq (hd : d'.erase = d.erase) (ho : o'.value.erase = o.value.erase)
    (hc : Counterpart d d' o o' h h') : h'.value.spread? = h.value.spread? := by
  rw [← Element.spread?_erase, hc.reads hd ho, Element.spread?_erase]

/-! ### Visits of counterparts -/

/-- Two recursions have come to **the same**: the counterparts of what one has met are what the other
one has met. -/
structure Abreast (d d' : Document) (o o' : Ref Operation) (course course' : DepthCourse) :
    Prop where
  own : course'.own = course.own
  accumulate : course'.accumulate = course.accumulate
  visited : ∀ {h h'}, Counterpart d d' o o' h h' → (h.id ∈ course.visited ↔ h'.id ∈ course'.visited)

/-- What two parts of recursions come to is **likewise** if they give related results, or stop for
the same reason. -/
def Likewise (d d' : Document) (o o' : Ref Operation) {α : Type} (R : α → α → Prop)
    (result result' : Except Stop α × DepthCourse) : Prop :=
  Abreast d d' o o' result.2 result'.2 ∧
    match result.1, result'.1 with
    | .ok a, .ok a' => R a a'
    | .error stop, .error stop' => stop = stop'
    | _, _ => False

section Likewise

variable {α γ : Type} {R : α → α → Prop} {course course' : DepthCourse}

theorem Likewise.bind {S : γ → γ → Prop} {x x' : Descent (Dict Nat) Handle Nat α}
    {f f' : α → Descent (Dict Nat) Handle Nat γ}
    (hx : Likewise d d' o o' R (x.runWith course) (x'.runWith course'))
    (hnext : ∀ a a' course course', R a a' → Abreast d d' o o' course course' →
      Likewise d d' o o' S ((f a).runWith course) ((f' a').runWith course')) :
    Likewise d d' o o' S ((x >>= f).runWith course) ((x' >>= f').runWith course') := by
  obtain ⟨habreast, hout⟩ := hx
  cases hrun : x.runWith course with
  | mk out next =>
    cases hrun' : x'.runWith course' with
    | mk out' next' =>
      rw [hrun, hrun'] at habreast hout
      match out, out', hout with
      | .ok a, .ok a', hr =>
        rw [Descent.runWith_bind_ok hrun, Descent.runWith_bind_ok hrun']
        exact hnext a a' next next' hr habreast
      | .error stop, .error _, hstop =>
        rw [Descent.runWith_bind_error hrun, Descent.runWith_bind_error hrun']
        exact ⟨habreast, hstop⟩

/-- Several parts of two recursions, one after the other. -/
theorem Likewise.mapM {P : γ → γ → Prop} {f f' : γ → Descent (Dict Nat) Handle Nat α}
    {list list' : List γ} (hlist : List.Forall₂ P list list')
    (hf : ∀ c c' course course', P c c' → Abreast d d' o o' course course' →
      Likewise d d' o o' R ((f c).runWith course) ((f' c').runWith course'))
    (habreast : Abreast d d' o o' course course') :
    Likewise d d' o o' (fun as as' => List.Forall₂ R as as' ∧ as.length = list.length)
      ((list.mapM f).runWith course) ((list'.mapM f').runWith course') := by
  induction hlist generalizing course course' with
  | nil => exact ⟨habreast, .nil, rfl⟩
  | @cons c c' list list' hc _ ih =>
    rw [List.mapM_cons, List.mapM_cons]
    refine (hf c c' _ _ hc habreast).bind fun a a' next next' ha hnext => ?_
    refine (ih hnext).bind fun as as' last last' has hlast => ⟨hlast, .cons ha has.1, ?_⟩
    rw [List.length_cons, List.length_cons, has.2]

/-- Meeting two counterparts for the first time. -/
theorem Abreast.enter (hunshared : d.Unshared o) (hunshared' : d'.Unshared o')
    (hc : Counterpart d d' o o' h h') (habreast : Abreast d d' o o' course course') :
    Abreast d d' o o' { course with visited := h.id :: course.visited }
      { course' with visited := h'.id :: course'.visited } where
  own := habreast.own
  accumulate := habreast.accumulate
  visited := fun hb => by
    rw [List.mem_cons, List.mem_cons, hb.id_iff hunshared hunshared' hc, habreast.visited hb]

/-- The children of counterparts stand at the same locations, and are counterparts. -/
theorem children_alike (hd : d'.erase = d.erase) (ho : o'.value.erase = o.value.erase)
    (hc : Counterpart d d' o o' h h') : List.Forall₂
      (fun p p' : Location × Handle => p'.1 = p.1 ∧ Counterpart d d' o o' p.2 p'.2)
      (children d.fragments h).located (children d'.fragments h').located := by
  have hreads := hc.reads hd ho
  rw [children, children, hc.spread?_eq hd ho]
  cases h.value.spread? with
  | some name =>
    rcases find?_fragments_cases hd name with ⟨hf, hf'⟩ | ⟨f, f', hf, hf', -⟩
    · simp only [hf, hf']
      exact .nil
    · simp only [hf, hf']
      exact .cons ⟨rfl, .fragment hf hf'⟩ .nil
  | none =>
    have hlength : (selectionHandles h'.value.selections).length =
        (selectionHandles h.value.selections).length := by
      have hitems := congrArg (fun e : Element => e.selections.items.length) hreads
      simp only [← Element.selections_erase, Selection.eraseList_eq_map, List.length_map] at hitems
      simp [selectionHandles, Block.handles, Block.refs, hitems]
    have hlocated : ∀ n : Handle, (selectionChildren n).located =
        (selectionHandles n.value.selections).mapIdx fun i m => (⟨.selections, i⟩, m) := fun n =>
      List.append_nil _
    rw [hlocated, hlocated, List.forall₂_iff_get]
    refine ⟨by simp [hlength], fun i hi hi' => ?_⟩
    rw [List.get_eq_getElem, List.get_eq_getElem, List.getElem_mapIdx, List.getElem_mapIdx]
    exact ⟨rfl, .selection hc (List.getElem?_eq_getElem _) (List.getElem?_eq_getElem _)⟩

/-- A spread names a fragment if its counterpart does. -/
theorem spread_defined (hd : d'.erase = d.erase) (ho : o'.value.erase = o.value.erase)
    (hc : Counterpart d d' o o' h h')
    (hdefined : ∀ name, h.value.spread? = some name → ∃ f, Dict.find? name d.fragments = some f) :
    ∀ name, h'.value.spread? = some name → ∃ f, Dict.find? name d'.fragments = some f := by
  intro name hname
  rw [hc.spread?_eq hd ho] at hname
  obtain ⟨f, hf⟩ := hdefined name hname
  rcases find?_fragments_cases hd name with ⟨hnone, -⟩ | ⟨-, f', -, hf', -⟩
  · rw [hf] at hnone
    cases hnone
  · exact ⟨f', hf'⟩

/-- The largest depth goes by the variables of the nodes. -/
theorem deepest_congr {heres heres' : List DepthFacts}
    (h : List.Forall₂ (fun here here' => here'.vars = here.vars) heres heres') :
    deepest heres' = deepest heres := by
  have hvars : heres'.map (fun here => here.vars.get? ()) =
      heres.map fun here => here.vars.get? () := by
    induction h with
    | nil => rfl
    | cons hfirst _ ih => rw [List.map_cons, List.map_cons, hfirst, ih]
  have hdeepest : ∀ heres : List DepthFacts, deepest heres =
      ((heres.map fun here => here.vars.get? ()).filterMap id).foldl max 0 := fun heres => by
    rw [List.filterMap_map]
    rfl
  rw [hdeepest, hdeepest, hvars]

/-- The largest depth below counterparts is the same. -/
theorem deepest_regroup (hd : d'.erase = d.erase) (ho : o'.value.erase = o.value.erase)
    (hc : Counterpart d d' o o' h h') {heres heres' : List DepthFacts}
    (hvars : List.Forall₂ (fun here here' => here'.vars = here.vars) heres heres')
    (hlength : heres.length = (children d.fragments h).located.length) :
    deepest ((children d'.fragments h').regroup heres').flatten =
      deepest ((children d.fragments h).regroup heres).flatten := by
  have hlength' : heres'.length = (children d'.fragments h').located.length := by
    rw [← hvars.length_eq, hlength, (children_alike hd ho hc).length_eq]
  rw [Children.flatten_regroup _ _ (hlength.trans (length_located _)),
    Children.flatten_regroup _ _ (hlength'.trans (length_located _))]
  exact deepest_congr hvars

/-- Facts about counterparts that were found at the same location. -/
structure SameFacts (d d' : Document) (o o' : Ref Operation) (here here' : DepthFacts) : Prop where
  node : Counterpart d d' o o' here.node here'.node
  location : here'.location = here.location
  vars : here'.vars = here.vars

variable {above above' : List DepthFacts} {here here' : DepthFacts}

/-- Leaving counterparts gives them the same depth. -/
theorem leave_alike (hd : d'.erase = d.erase) (ho : o'.value.erase = o.value.erase)
    (hhere : SameFacts d d' o o' here here') {below below' : Children DepthFacts}
    (hbelow : deepest below'.flatten = deepest below.flatten)
    (habreast : Abreast d d' o o' course course') :
    Likewise d d' o o' (fun here here' => here'.vars = here.vars)
      ((consult (depthPlan d.fragments).rootVars (sightVisitor d.fragments) .leave above
        (some below) here >>= fun p => heed above p.2 p.1).runWith course)
      ((consult (depthPlan d'.fragments).rootVars (sightVisitor d'.fragments) .leave above'
        (some below') here' >>= fun p => heed above' p.2 p.1).runWith course') := by
  have hreads := hhere.node.reads hd ho
  have hdepth : ∀ inner, depthOf here'.node.value inner = depthOf here.node.value inner :=
    fun inner => by rw [← depthOf_erase, hreads, depthOf_erase]
  have hmemo : ∀ inner memo, remember here'.node.value inner memo =
      remember here.node.value inner memo :=
    fun inner memo => by rw [← remember_erase, hreads, remember_erase]
  rw [Descent.runWith_bind_ok (consult_leave below), Descent.runWith_bind_ok (consult_leave below')]
  simp only [hbelow, hdepth, hmemo, hhere.location, hhere.vars, habreast.own, habreast.accumulate]
  exact ⟨⟨rfl, rfl, habreast.visited⟩, rfl⟩

/-- Meeting counterparts again recalls the same depth, or fails for the same reason. -/
theorem backRef_alike (hd : d'.erase = d.erase) (ho : o'.value.erase = o.value.erase)
    (hhere : SameFacts d d' o o' here here') (habreast : Abreast d d' o o' course course') :
    Likewise d d' o o' (fun here here' => here'.vars = here.vars)
      ((consult (depthPlan d.fragments).rootVars (sightVisitor d.fragments) .backRef above
        none here >>= fun p => heed above p.2 p.1).runWith course)
      ((consult (depthPlan d'.fragments).rootVars (sightVisitor d'.fragments) .backRef above'
        none here' >>= fun p => heed above' p.2 p.1).runWith course') := by
  have hreads := hhere.node.reads hd ho
  by_cases hfragment : ∃ f, here.node.value = .definition (.fragment f)
  · obtain ⟨f, hf⟩ := hfragment
    obtain ⟨f', hf', hname⟩ := Element.eq_fragment_of_erase (hf ▸ hreads)
    have hmemo' : Dict.find? f'.name course'.own = Dict.find? f.name course.own := by
      rw [habreast.own, hname]
    cases hmemo : Dict.find? f.name course.own with
    | some depth =>
      rw [hmemo] at hmemo'
      rw [Descent.runWith_bind_ok ((consult_backRef hf).trans (by rw [hmemo])),
        Descent.runWith_bind_ok ((consult_backRef hf').trans (by rw [hmemo']))]
      have hvars : here'.vars.insert () depth = here.vars.insert () depth := by rw [hhere.vars]
      exact ⟨habreast, hvars⟩
    | none =>
      rw [hmemo] at hmemo'
      rw [Descent.runWith_bind_error ((consult_backRef hf).trans (by rw [hmemo])),
        Descent.runWith_bind_error ((consult_backRef hf').trans (by rw [hmemo']))]
      exact ⟨habreast, congrArg (fun name => Stop.failed (.fragmentCycle name)) hname.symm⟩
  · have hfragment' : ∀ f, here'.node.value ≠ .definition (.fragment f) := fun f hf => by
      obtain ⟨f', hf', -⟩ := Element.eq_fragment_of_erase (hf ▸ hreads.symm)
      exact hfragment ⟨f', hf'⟩
    rw [Descent.runWith_bind_ok (consult_backRef_other fun f hf => hfragment ⟨f, hf⟩),
      Descent.runWith_bind_ok (consult_backRef_other hfragment')]
    exact ⟨habreast, hhere.vars⟩

/-- **Visits of counterparts come to the same.** -/
theorem visits_alike (hd : d'.erase = d.erase) (ho : o'.value.erase = o.value.erase)
    (hunshared : d.Unshared o) (hunshared' : d'.Unshared o') (levels : Nat)
    {location : Option Location} {accumulate accumulate' : Nat}
    (hc : Counterpart d d' o o' h h') (habreast : Abreast d d' o o' course course') :
    Likewise d d' o o' (fun here here' => here'.vars = here.vars)
      ((visit (depthPlan d.fragments) (sightVisitor d.fragments) levels above
        (.discover h location accumulate)).runWith course)
      ((visit (depthPlan d'.fragments) (sightVisitor d'.fragments) levels above'
        (.discover h' location accumulate')).runWith course') := by
  induction levels generalizing h h' location accumulate accumulate' course course' above above' with
  | zero => exact ⟨habreast, rfl⟩
  | succ levels ih =>
    have hfacts : SameFacts d d' o o' (.discover h location accumulate)
        (.discover h' location accumulate') := ⟨hc, rfl, rfl⟩
    by_cases hmet : h.id ∈ course.visited
    · have hmet' := (habreast.visited hc).mp hmet
      rw [runWith_visit_again (List.contains_iff_mem.mpr hmet),
        runWith_visit_again (List.contains_iff_mem.mpr hmet')]
      exact backRef_alike hd ho hfacts habreast
    · have hmet' : h'.id ∉ course'.visited := fun hmem => hmet ((habreast.visited hc).mpr hmem)
      have hfirst : course.visited.contains h.id = false := by simpa using hmet
      have hfirst' : course'.visited.contains h'.id = false := by simpa using hmet'
      rw [runWith_visit_first hfirst, runWith_visit_first hfirst']
      by_cases hdefined : ∀ name, h.value.spread? = some name →
          ∃ f, Dict.find? name d.fragments = some f
      · rw [consult_enter hdefined, consult_enter (spread_defined hd ho hc hdefined)]
        refine (Likewise.mapM (R := fun here here' => here'.vars = here.vars)
          (children_alike hd ho hc) (fun p p' next next' hp hnext => ?_)
          (habreast.enter hunshared hunshared' hc)).bind fun heres heres' last last' hheres hlast => ?_
        · rw [hp.1]
          exact ih hp.2 hnext
        · have hentered : SameFacts d d' o o'
              (reach (.discover h location accumulate) course.accumulate .enter)
              (reach (.discover h' location accumulate') course'.accumulate .enter) :=
            ⟨hc, rfl, rfl⟩
          exact leave_alike hd ho hentered (deepest_regroup hd ho hc hheres.1 hheres.2) hlast
      · -- both spreads name a fragment that is not defined
        simp only [not_forall, not_exists] at hdefined
        obtain ⟨name, hname, hmissing⟩ := hdefined
        rcases find?_fragments_cases hd name with ⟨hnone, hnone'⟩ | ⟨f, -, hf, -⟩
        · rw [consult_enter_unknown hname hnone,
            consult_enter_unknown ((hc.spread?_eq hd ho).trans hname) hnone']
          exact ⟨habreast, rfl⟩
        · exact absurd hf (hmissing f)

end Likewise

/-! ### Depths -/

theorem Likewise.conclude_eq {α : Type} {R : α → α → Prop}
    {result result' : Except Stop α × DepthCourse} (hlikewise : Likewise d d' o o' R result result') :
    (conclude result').1 = (conclude result).1 := by
  obtain ⟨out, course⟩ := result
  obtain ⟨out', course'⟩ := result'
  obtain ⟨habreast, hout⟩ := hlikewise
  match out, out', hout with
  | .ok _, .ok _, _ => exact congrArg Except.ok habreast.accumulate
  | .error .quit, .error _, rfl => exact congrArg Except.ok habreast.accumulate
  | .error (.failed e), .error _, rfl => rfl
  | .error .exhausted, .error _, rfl => rfl

/-- Documents that read the same have as many nodes. -/
theorem length_nodes_congr (hd : d'.erase = d.erase) (ho : o'.value.erase = o.value.erase) :
    (d'.nodes o').length = (d.nodes o).length := by
  have hlength : ∀ (d : Document) (o : Ref Operation), (d.nodes o).length = o.value.size +
      ((Dict.mapValues (fun f => f.value.erase) d.fragments).map fun e => e.2.size).sum := by
    intro d o
    have hfragment : ∀ f : Ref Fragment, f.ofFragment.within.length = f.value.erase.size := fun f => by
      rw [Handle.length_within, Fragment.size, Fragment.erase, eraseSelections,
        Selection.sizeList_eraseList]
      rfl
    rw [Document.nodes, List.flatMap_cons, List.length_append, List.length_flatMap,
      Handle.length_within, Dict.mapValues, List.map_map, List.map_map]
    simp only [Function.comp_def, hfragment]
    rfl
  have hsize : o'.value.size = o.value.size :=
    congrArg (1 + ·) (Selection.sizeList_congr (Operation.eraseList_items ho))
  rw [hlength, hlength, Document.fragments_congr hd, hsize]

/-- **Operations that read the same and share no nodes have the same depth**, or the same error. -/
theorem ofOperation_congr (hd : d'.erase = d.erase) (ho : o'.value.erase = o.value.erase)
    (hunshared : d.Unshared o) (hunshared' : d'.Unshared o') :
    ofOperation d' o' = ofOperation d o := by
  have hroots : List.Forall₂ (Counterpart d d' o o') [o.ofOperation] [o'.ofOperation] :=
    .cons .operation .nil
  have hstart : Abreast d d' o o' { own := [], accumulate := 0, edits := none }
      { own := [], accumulate := 0, edits := none } := ⟨rfl, rfl, fun _ => ⟨nofun, nofun⟩⟩
  rw [(ofOperation_eq_descend d o).1, (ofOperation_eq_descend d' o').1, length_nodes_congr hd ho,
    runWith_descend, runWith_descend, visitRoots, visitRoots]
  exact (Likewise.mapM hroots (fun h h' course course' hc habreast =>
    visits_alike hd ho hunshared hunshared' _ hc habreast) hstart).conclude_eq

end Counterpart

end Arborist.Analysis.Depth
