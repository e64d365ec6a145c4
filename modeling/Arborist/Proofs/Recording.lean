import Arborist.Proofs.Bookkeeping

/-!
# A rewrite is what a walk records

Following a rewrite and a walk over the same tree callback by callback: the walk adds to the record
the edits that stand for what the rewrite yields.

* `Progress.roster` are the identities that a rewrite has met or supplied, and `rewrite_grows` says
  that it only grows.
* A `Part` is what one position adds to the record, and `Part.AccountsFor` that it stands for what
  the rewrite came to there.
* `recordsVisit`: as long as no identity is known twice, every visit of the walk adds a part that
  accounts for the rewrite of the node. The induction is on the levels, and goes through the
  children (`rewriteEach_recorded`) and through one node (`enter_recorded`, `Entered.leaves`).
-/

namespace Arborist

variable {σ N A κ : Type} {β : κ → Type}

/-! ### Lists by location -/

/-- What goes with the members of a list goes with their keys. -/
theorem exists_keyed {K M : Type} [DecidableEq K] [Inhabited M] {list : List (K × N)}
    (hkeys : (list.map Prod.fst).Nodup) {outs : List M} (hlen : list.length = outs.length) :
    ∃ f : K → M, outs = list.map fun x => f x.1 := by
  induction list generalizing outs with
  | nil => exact ⟨fun _ => default, List.length_eq_zero_iff.mp hlen.symm⟩
  | cons x list ih =>
    obtain ⟨hnot, hrest⟩ := List.nodup_cons.mp hkeys
    cases outs with
    | nil => simp at hlen
    | cons out outs =>
      obtain ⟨f, rfl⟩ := ih hrest (Nat.succ.inj hlen)
      refine ⟨fun k => if k = x.1 then out else f k, ?_⟩
      have htail : list.map (fun y => f y.1) =
          list.map fun y => if y.1 = x.1 then out else f y.1 := by
        refine List.map_congr_left fun y hy => ?_
        rw [if_neg fun heq => hnot (List.mem_map.mpr ⟨y, hy, heq⟩)]
      simp [htail]

/-- Spreading what was dealt out to the children spreads it by their locations. -/
theorem Children.spread_regroup {M L : Type} {c : Children N} {items : List M} {f : M → List L}
    {g : Location → List L} (h : items.map f = c.located.map fun x => g x.1) :
    ((c.regroup items).spread fun _ item => f item) = c.spread fun l _ => g l := by
  obtain ⟨groups⟩ := c
  simp only [regroup, spread, located, Children.mk.injEq] at h ⊢
  induction groups generalizing items with
  | nil => rfl
  | cons group groups ih =>
    obtain ⟨role, list⟩ := group
    have hgroup : (list.mapIdx fun i child => ((⟨role, i⟩ : Location), child)).map
      (fun x => g x.1) =
        list.mapIdx fun i _ => g ⟨role, i⟩ := by
      apply List.ext_getElem <;> simp
    rw [List.flatMap_cons, List.map_append, hgroup] at h
    have htake := congrArg (List.take list.length) h
    have hdrop := congrArg (List.drop list.length) h
    rw [← List.map_take, List.take_left' (by simp)] at htake
    rw [← List.map_drop, List.drop_left' (by simp)] at hdrop
    rw [dealOut, List.map_cons, List.map_cons, ih hdrop]
    congr 3
    rw [← htake]
    apply List.ext_getElem <;> simp

namespace Traversal

variable [Identified N]

/-! ### Known identities -/

namespace Progress

variable {p q r : Progress σ N A}

/-- The identities of the nodes that were met or supplied. -/
def roster (p : Progress σ N A) : List (Identity N) :=
  p.visited ++ p.supplied.map identity

/-- Nothing that was met or supplied is forgotten. -/
structure Grows (p q : Progress σ N A) : Prop where
  visited : p.visited <:+ q.visited
  supplied : p.supplied <+: q.supplied

theorem Grows.refl (p : Progress σ N A) : p.Grows p :=
  ⟨List.suffix_rfl, List.prefix_rfl⟩

theorem Grows.trans (hpq : p.Grows q) (hqr : q.Grows r) : p.Grows r :=
  ⟨hpq.visited.trans hqr.visited, hpq.supplied.trans hqr.supplied⟩

theorem Grows.roster_sublist (h : p.Grows q) : p.roster.Sublist q.roster :=
  h.visited.sublist.append (h.supplied.sublist.map identity)

theorem Grows.roster_subset (h : p.Grows q) : p.roster ⊆ q.roster :=
  h.roster_sublist.subset

theorem Grows.nodup (h : p.Grows q) (hq : q.roster.Nodup) : p.roster.Nodup :=
  hq.sublist h.roster_sublist

theorem grows_meet (p : Progress σ N A) (id : Identity N) : p.Grows (p.meet id) :=
  ⟨List.suffix_cons _ _, List.prefix_rfl⟩

end Progress

variable [DecidableEq κ] {plan : Plan N A β} {visitor : SightVisitor σ N A β}

theorem revise_grows (rootVars : Vars β) (visitor : SightVisitor σ N A β) (phase : Phase)
    (above : List (Facts N A β)) (below : Option (Children (Facts N A β))) (d : Draft N A β)
    (p : Progress σ N A) : p.Grows (revise rootVars visitor phase above below d p).2 := by
  rw [revise]
  split
  · exact ⟨List.suffix_rfl, List.prefix_append _ _⟩
  · exact ⟨List.suffix_rfl, List.prefix_rfl⟩

omit [DecidableEq κ] in
theorem rewriteEach_grows
    {one : Facts N A β → Progress σ N A → Except Stop (Rewritten N A β) × Progress σ N A}
    (hone : ∀ met (p : Progress σ N A), p.Grows (one met p).2) (mets : List (Facts N A β))
    (p : Progress σ N A) :
    p.Grows (rewriteEach one mets p).2 := by
  induction mets generalizing p with
  | nil => exact .refl p
  | cons met rest ih =>
    have hmet := hone met p
    rw [rewriteEach]
    generalize one met p = result at hmet ⊢
    obtain ⟨out, q⟩ := result
    cases out with
    | error stop => exact hmet
    | ok r =>
      dsimp only
      split
      · exact hmet
      · have hrest := ih q
        generalize rewriteEach one rest q = results at hrest ⊢
        obtain ⟨outs, q'⟩ := results
        cases outs with
        | error stop => exact hmet.trans hrest
        | ok rs => exact hmet.trans hrest

theorem rewriteLeft_grows (plan : Plan N A β) (visitor : SightVisitor σ N A β)
    (above : List (Facts N A β)) (entered : Draft N A β) (children : Children N)
    (rs : List (Rewritten N A β)) (p : Progress σ N A) :
    p.Grows (rewriteLeft plan visitor above entered children rs p).2 := by
  have hleave := revise_grows plan.rootVars visitor .leave above
    (some (children.regroup (rs.map Rewritten.here))) entered p
  rw [rewriteLeft]
  generalize revise plan.rootVars visitor .leave above
    (some (children.regroup (rs.map Rewritten.here))) entered p = left at hleave ⊢
  obtain ⟨_ | ⟨_ | _ | _, d⟩, q⟩ := left <;> exact hleave

theorem rewriteBelow_grows (plan : Plan N A β) (visitor : SightVisitor σ N A β)
    {one : Facts N A β → Progress σ N A → Except Stop (Rewritten N A β) × Progress σ N A}
    (hone : ∀ met (p : Progress σ N A), p.Grows (one met p).2) (above : List (Facts N A β))
    (control : Control) (entered : Draft N A β) (p : Progress σ N A) :
    p.Grows (rewriteBelow .usual plan visitor one above control entered p).2 := by
  rw [rewriteBelow]
  generalize (if entered.here.deleted || control = .abort then .empty
    else plan.children entered.here.node : Children N) = children
  have hbelow := rewriteEach_grows hone
    (children.located.map fun q => .discover q.2 (some q.1) p.accumulate) p
  generalize rewriteEach one _ p = results at hbelow ⊢
  obtain ⟨_ | rs, q⟩ := results
  · exact hbelow
  · dsimp only
    split
    · exact hbelow.trans (rewriteLeft_grows plan visitor above entered children rs q)
    · exact hbelow

theorem rewrite_grows (plan : Plan N A β) (visitor : SightVisitor σ N A β) (levels : Nat)
    (above : List (Facts N A β)) (met : Facts N A β) (p : Progress σ N A) :
    p.Grows (rewrite .usual plan visitor levels above met p).2 := by
  induction levels generalizing above met p with
  | zero => exact .refl p
  | succ levels ih =>
    have henter := revise_grows plan.rootVars visitor .enter above none { here := met } p
    rw [rewrite]
    generalize revise plan.rootVars visitor .enter above none { here := met } p =
      entered at henter ⊢
    obtain ⟨_ | ⟨control, d⟩, q⟩ := entered
    · exact henter
    · have hmeet : p.Grows (q.meet (identity met.first)) := henter.trans (q.grows_meet _)
      cases control with
      | quit => exact hmeet
      | abort => exact hmeet.trans (rewriteBelow_grows plan visitor (ih _) above .abort d _)
      | proceed => exact hmeet.trans (rewriteBelow_grows plan visitor (ih _) above .proceed d _)

/-- A node whose children are passed over stays as it was entered. -/
theorem rewriteBelow_abort
    {one : Facts N A β → Progress σ N A → Except Stop (Rewritten N A β) × Progress σ N A}
    (above : List (Facts N A β)) (entered : Draft N A β) (p : Progress σ N A) :
    rewriteBelow .usual plan visitor one above .abort entered p =
      (.ok (entered.rewritten (.keep entered.here.node) false false), p) := by
  simp only [rewriteBelow, decide_true, Bool.or_true, if_true, Children.located, Children.empty,
    List.flatMap_nil, List.map_nil, rewriteEach]
  rfl

/-- How a rewrite goes on below a node: the children are rewritten, and then the node is left unless
a callback quits. -/
theorem rewriteBelow_cases
    {one : Facts N A β → Progress σ N A → Except Stop (Rewritten N A β) × Progress σ N A}
    {above : List (Facts N A β)} {d : Draft N A β} {p q : Progress σ N A} {r : Rewritten N A β}
    {children : Children N}
    (hchildren : children = if d.here.deleted then .empty else plan.children d.here.node)
    (h : rewriteBelow .usual plan visitor one above .proceed d p = (.ok r, q)) :
    ∃ rs p₂, rewriteEach one
        (children.located.map fun x => .discover x.2 (some x.1) p.accumulate) p =
        (.ok rs, p₂) ∧
      ((rs.any Rewritten.halted = true ∧ q = p₂ ∧
        r = d.rewritten (rebuilt d.here.node children rs) (rs.any Rewritten.touched) true) ∨
      (rs.any Rewritten.halted = false ∧ ∃ halted e,
        revise plan.rootVars visitor .leave above
          (some (children.regroup (rs.map Rewritten.here))) d p₂ =
            (.ok (if halted then .quit else .proceed, e), q) ∧
        r = e.left d (rebuilt d.here.node children rs) (rs.any Rewritten.touched) halted)) := by
  have hsame : children = if d.here.deleted || (Control.proceed = .abort : Bool) then .empty
      else plan.children d.here.node := by
    rw [hchildren]
    simp
  rw [rewriteBelow, ← hsame] at h
  generalize rewriteEach one _ p = results at h ⊢
  obtain ⟨_ | rs, p₂⟩ := results
  · simp at h
  · refine ⟨rs, p₂, rfl, ?_⟩
    dsimp only at h
    cases hover : rs.any Rewritten.halted with
    | true =>
      rw [hover] at h
      simp only [Bool.not_true, Bool.false_and, Bool.false_eq_true, if_false, Prod.mk.injEq,
        Except.ok.injEq] at h
      exact .inl ⟨rfl, h.2.symm, h.1.symm⟩
    | false =>
      have husual : (!false && Leaving.usual .proceed d.here.deleted) = true := rfl
      rw [hover, if_pos husual, rewriteLeft] at h
      generalize revise plan.rootVars visitor .leave above
        (some (children.regroup (rs.map Rewritten.here))) d p₂ = left at h ⊢
      refine .inr ⟨rfl, ?_⟩
      obtain ⟨_ | ⟨control, e⟩, q'⟩ := left
      · simp at h
      · cases control with
        | abort => simp at h
        | proceed =>
          simp only [Prod.mk.injEq, Except.ok.injEq] at h
          obtain ⟨rfl, rfl⟩ := h
          exact ⟨false, e, rfl, rfl⟩
        | quit =>
          simp only [Prod.mk.injEq, Except.ok.injEq] at h
          obtain ⟨rfl, rfl⟩ := h
          exact ⟨true, e, rfl, rfl⟩

/-- How a rewrite comes about: the node is entered, and then its children are rewritten and it is
left, unless the callback says otherwise. -/
theorem rewrite_cases {levels : Nat} {above : List (Facts N A β)} {met : Facts N A β}
    {p q : Progress σ N A} {r : Rewritten N A β}
    (h : rewrite .usual plan visitor (levels + 1) above met p = (.ok r, q)) :
    ∃ control d p₁, revise plan.rootVars visitor .enter above none { here := met } p =
        (.ok (control, d), p₁) ∧
      ((control = .proceed ∧
        rewriteBelow .usual plan visitor (rewrite .usual plan visitor levels (d.here :: above))
          above
          .proceed d (p₁.meet (identity met.first)) = (.ok r, q)) ∨
      ∃ halted, control = (if halted then .quit else .abort) ∧
        r = d.rewritten (.keep d.here.node) false halted ∧ q = p₁.meet (identity met.first)) := by
  rw [rewrite] at h
  generalize revise plan.rootVars visitor .enter above none { here := met } p = entered at h ⊢
  obtain ⟨_ | ⟨control, d⟩, p₁⟩ := entered
  · simp at h
  · refine ⟨control, d, p₁, rfl, ?_⟩
    cases control with
    | proceed => exact .inl ⟨rfl, h⟩
    | abort =>
      simp only [rewriteBelow_abort, Prod.mk.injEq, Except.ok.injEq] at h
      exact .inr ⟨false, rfl, h.1.symm, h.2.symm⟩
    | quit =>
      simp only [Prod.mk.injEq, Except.ok.injEq] at h
      exact .inr ⟨true, rfl, h.1.symm, h.2.symm⟩

/-! ### What is recorded -/

/-- What was **recorded** while a walk went on from `p` to `q`. -/
structure Recorded (inside : N → Prop) (p q : Progress σ N A) (log edits : List (Zipper N))
    (stations : List (List (Crumb N) × N)) : Prop where
  logged : Logged q.roster (log ++ edits)
  new : ∀ z ∈ edits, identity z.node ∉ p.roster
  met : ∀ s ∈ stations, identity s.2 ∈ q.roster ∧ identity s.2 ∉ p.roster
  distinct : (stations.map fun s => identity s.2).Nodup
  inside : ∀ s ∈ stations, inside s.2

namespace Recorded

variable {inside : N → Prop} {p q r : Progress σ N A} {log edits edits' : List (Zipper N)}
  {stations stations' : List (List (Crumb N) × N)}

theorem nil (h : Logged p.roster log) : Recorded inside p p log [] [] where
  logged := by simpa using h
  new := by simp
  met := by simp
  distinct := by simp
  inside := by simp

/-- One part after the other. -/
theorem append (h : Recorded inside p q log edits stations)
    (h' : Recorded inside q r (log ++ edits) edits' stations') (hpq : p.Grows q) (hqr : q.Grows r) :
    Recorded inside p r log (edits ++ edits') (stations ++ stations') where
  logged := by simpa using h'.logged
  new := fun z hz => by
    rcases List.mem_append.mp hz with hz | hz
    · exact h.new z hz
    · exact fun hmem => h'.new z hz (hpq.roster_subset hmem)
  met := fun s hs => by
    rcases List.mem_append.mp hs with hs | hs
    · exact ⟨hqr.roster_subset (h.met s hs).1, (h.met s hs).2⟩
    · exact ⟨(h'.met s hs).1, fun hmem => (h'.met s hs).2 (hpq.roster_subset hmem)⟩
  distinct := by
    rw [List.map_append, List.nodup_append]
    refine ⟨h.distinct, h'.distinct, ?_⟩
    rintro i hi j hj rfl
    obtain ⟨s, hs, rfl⟩ := List.mem_map.mp hi
    obtain ⟨s', hs', heq⟩ := List.mem_map.mp hj
    exact (h'.met s' hs').2 (heq ▸ (h.met s hs).1)
  inside := fun s hs => by
    rcases List.mem_append.mp hs with hs | hs
    · exact h.inside s hs
    · exact h'.inside s hs

end Recorded

/-- What a walk records at one position and below it. -/
structure Part (N : Type) where
  edits : List (Zipper N)
  stations : List (List (Crumb N) × N)
  yield : List (Sketch N)

instance : Inhabited (Part N) := ⟨⟨[], [], []⟩⟩

/-- A node that was not reached. -/
def Part.unreached (node : N) : Part N :=
  ⟨[], [], [.keep node]⟩

/-- A part **accounts for** what has become of a node. -/
structure Part.AccountsFor (adapter : Adapter σ N) (inside : N → Prop) (crumbs : List (Crumb N))
    (location : Option Location) (node : N) (p q : Progress σ N A) (log : List (Zipper N))
    (r : Rewritten N A β) (part : Part N) : Prop where
  records : Records adapter crumbs node part.edits part.stations part.yield
  yield : r.yield = part.yield
  touched : r.touched = !part.edits.isEmpty
  recorded : Recorded inside p q log part.edits part.stations
  /-- Nothing is put beside a root. -/
  alone : location = none → ∀ z ∈ part.edits, z.crumbs = crumbs → z.edit.inserts = false
  /-- A root that was deleted on entering has no other edits. -/
  deleted : location = none → r.deletedLeaving = false → ∀ z ∈ part.edits, z.crumbs = crumbs →
    z.edit = .delete → part.edits = [z]

/-- The walk that visits a node comes to what its rewrite comes to, and **records** it. -/
def RecordsVisit (adapter : Adapter σ N) (inside : N → Prop) (plan : Plan N A β)
    (visitor : SightVisitor σ N A β) (levels : Nat) : Prop :=
  ∀ (above : List (Facts N A β)) (node : N) (location : Option Location) (accumulate : A)
    (p q : Progress σ N A) (r : Rewritten N A β) (log : List (Zipper N)),
    rewrite .usual plan visitor levels above (.discover node location accumulate) p = (.ok r, q) →
    inside node → (∀ n ∈ q.supplied, inside n) → q.roster.Nodup → Logged p.roster log →
    ∃ part : Part N,
      part.AccountsFor adapter inside (Facts.crumbs location above) location node p q log r ∧
      (visit plan visitor levels above (.discover node location accumulate)).runWith
        (p.course log) =
        (if r.halted then .error .quit else .ok r.here, q.course (log ++ part.edits))

omit [DecidableEq κ] in
/-- **What rewriting children one after the other comes to**: a callback on the first may quit, and
then the others are not reached. -/
theorem rewriteEach_cons
    {one : Facts N A β → Progress σ N A → Except Stop (Rewritten N A β) × Progress σ N A}
    {met : Facts N A β} {rest : List (Facts N A β)} {p q : Progress σ N A} {rs : List (Rewritten N A β)}
    (h : rewriteEach one (met :: rest) p = (.ok rs, q)) :
    ∃ r p₁, one met p = (.ok r, p₁) ∧
      (r.halted = true ∧ q = p₁ ∧ rs = r :: rest.map .unreached ∨
        r.halted = false ∧ ∃ rs', rewriteEach one rest p₁ = (.ok rs', q) ∧ rs = r :: rs') := by
  rw [rewriteEach] at h
  generalize one met p = result at h
  obtain ⟨_ | r, p₁⟩ := result
  · simp at h
  refine ⟨r, p₁, rfl, ?_⟩
  dsimp only at h
  cases hover : r.halted with
  | true =>
    rw [hover, if_pos rfl, Prod.mk.injEq, Except.ok.injEq] at h
    exact .inl ⟨rfl, h.2.symm, h.1.symm⟩
  | false =>
    rw [hover, if_neg (by decide)] at h
    generalize rewriteEach one rest p₁ = results at h
    obtain ⟨_ | rs', q'⟩ := results
    · simp at h
    · rw [Prod.mk.injEq, Except.ok.injEq] at h
      exact .inr ⟨rfl, rs', congrArg _ h.2, h.1.symm⟩

/-- Parts **account for** the children of a node, one for each. -/
structure AccountForEach (adapter : Adapter σ N) (inside : N → Prop) (parent : N)
    (crumbs : List (Crumb N)) (list : List (Location × N)) (p q : Progress σ N A)
    (log : List (Zipper N)) (rs : List (Rewritten N A β)) (parts : List (Part N)) : Prop where
  records : List.Forall₂ (fun x part => Records adapter (⟨parent, x.1⟩ :: crumbs) x.2
    part.edits part.stations part.yield) list parts
  yields : rs.map Rewritten.yield = parts.map Part.yield
  touched : rs.any Rewritten.touched = !(parts.flatMap Part.edits).isEmpty
  recorded : Recorded inside p q log (parts.flatMap Part.edits) (parts.flatMap Part.stations)

namespace AccountForEach

variable {adapter : Adapter σ N} {inside : N → Prop} {parent : N} {crumbs : List (Crumb N)}
  {list : List (Location × N)} {p p₁ q : Progress σ N A} {log : List (Zipper N)}
  {rs : List (Rewritten N A β)} {parts : List (Part N)}

omit [DecidableEq κ] [Identified N] in
@[simp] theorem flatMap_edits_unreached (list : List (Location × N)) :
    (list.map fun x => Part.unreached x.2).flatMap Part.edits = [] := by
  rw [List.flatMap_map]
  exact List.flatMap_eq_nil_iff.mpr fun _ _ => rfl

omit [DecidableEq κ] [Identified N] in
@[simp] theorem flatMap_stations_unreached (list : List (Location × N)) :
    (list.map fun x => Part.unreached x.2).flatMap Part.stations = [] := by
  rw [List.flatMap_map]
  exact List.flatMap_eq_nil_iff.mpr fun _ _ => rfl

omit [DecidableEq κ] in
/-- Nothing is recorded of children that are not reached. -/
theorem unreached (list : List (Location × N)) (accumulate : A) (hlog : Logged p.roster log) :
    AccountForEach adapter inside parent crumbs list p p log
      ((list.map fun x => (.discover x.2 (some x.1) accumulate : Facts N A β)).map .unreached)
      (list.map fun x => .unreached x.2) where
  records := by
    rw [List.forall₂_map_right_iff]
    exact List.forall₂_same.mpr fun x _ => .unreached _ _
  yields := by simp [Part.unreached, Rewritten.unreached, Facts.discover]
  touched := by simp [Rewritten.unreached]
  recorded := by
    rw [flatMap_edits_unreached, flatMap_stations_unreached]
    exact .nil hlog

omit [DecidableEq κ] in
/-- The first child adds its part to the record, and the others add theirs to that. -/
theorem cons {x : Location × N} {r : Rewritten N A β} {part : Part N}
    (hone : part.AccountsFor adapter inside (⟨parent, x.1⟩ :: crumbs) (some x.1) x.2 p p₁ log r)
    (hrest : AccountForEach adapter inside parent crumbs list p₁ q (log ++ part.edits) rs parts)
    (hgrows : p.Grows p₁) (hgrows' : p₁.Grows q) :
    AccountForEach adapter inside parent crumbs (x :: list) p q log (r :: rs) (part :: parts) where
  records := .cons hone.records hrest.records
  yields := by rw [List.map_cons, List.map_cons, hone.yield, hrest.yields]
  touched := by
    rw [List.any_cons, List.flatMap_cons, hone.touched, hrest.touched]
    cases part.edits <;> simp
  recorded := by
    rw [List.flatMap_cons, List.flatMap_cons]
    exact hone.recorded.append hrest.recorded hgrows hgrows'

end AccountForEach

section Each

variable {adapter : Adapter σ N} {inside : N → Prop} {levels : Nat}

/-- The children of a node, one after the other. -/
theorem rewriteEach_recorded (hvisit : RecordsVisit adapter inside plan visitor levels)
    {here : Facts N A β} {above : List (Facts N A β)} {accumulate : A} {list : List (Location × N)}
    {p q : Progress σ N A} {rs : List (Rewritten N A β)} {log : List (Zipper N)}
    (h : rewriteEach (rewrite .usual plan visitor levels (here :: above))
      (list.map fun x => .discover x.2 (some x.1) accumulate) p = (.ok rs, q))
    (hlist : ∀ x ∈ list, inside x.2) (hsupplied : ∀ n ∈ q.supplied, inside n)
    (hnodup : q.roster.Nodup) (hlog : Logged p.roster log) :
    ∃ parts : List (Part N),
      AccountForEach adapter inside here.node (Facts.crumbs here.location above) list p q log rs
        parts ∧
      (list.mapM fun x => visit plan visitor levels (here :: above)
        (.discover x.2 (some x.1) accumulate)).runWith (p.course log) =
        (if rs.any Rewritten.halted then .error .quit else .ok (rs.map Rewritten.here),
          q.course (log ++ parts.flatMap Part.edits)) := by
  induction list generalizing p rs log with
  | nil =>
    simp only [List.map_nil, rewriteEach, Prod.mk.injEq, Except.ok.injEq] at h
    obtain ⟨rfl, rfl⟩ := h
    refine ⟨[], .unreached [] accumulate hlog, ?_⟩
    simp only [List.flatMap_nil, List.append_nil]
    rfl
  | cons x list ih =>
    obtain ⟨r, p₁, hone, hrest⟩ := rewriteEach_cons h
    have hgrows : p.Grows p₁ := by
      have hgrows := rewrite_grows plan visitor levels (here :: above)
        (.discover x.2 (some x.1) accumulate) p
      rwa [hone] at hgrows
    rcases hrest with ⟨hover, rfl, rfl⟩ | ⟨hover, rs', hrest, rfl⟩
    · obtain ⟨part, hpart, hrun⟩ := hvisit _ _ _ _ _ _ _ log hone
        (hlist x List.mem_cons_self) hsupplied hnodup hlog
      refine ⟨part :: list.map fun x => .unreached x.2,
        .cons hpart (.unreached list accumulate hpart.recorded.logged) hgrows (.refl _), ?_⟩
      rw [hover, if_pos rfl] at hrun
      rw [List.mapM_cons, Descent.runWith_bind_error hrun, List.any_cons, hover, Bool.true_or,
        if_pos rfl, List.flatMap_cons, AccountForEach.flatMap_edits_unreached, List.append_nil]
    · have hgrows' : p₁.Grows q := by
        have hgrows := rewriteEach_grows (rewrite_grows plan visitor
          levels (here :: above)) (list.map fun x => .discover x.2 (some x.1) accumulate) p₁
        rwa [hrest] at hgrows
      obtain ⟨part, hpart, hrun⟩ := hvisit _ _ _ _ _ _ _ log hone
        (hlist x List.mem_cons_self) (fun n hn => hsupplied n (hgrows'.supplied.subset hn))
        (hgrows'.nodup hnodup) hlog
      obtain ⟨parts, hparts, hrun'⟩ := ih hrest
        (fun x hx => hlist x (List.mem_cons_of_mem _ hx)) hpart.recorded.logged
      refine ⟨part :: parts, .cons hpart hparts hgrows hgrows', ?_⟩
      rw [hover, if_neg (by decide)] at hrun
      rw [List.mapM_cons, Descent.runWith_bind_ok hrun, List.any_cons, hover, Bool.false_or,
        List.flatMap_cons, ← List.append_assoc]
      cases hquit : rs'.any Rewritten.halted with
      | true =>
        rw [hquit, if_pos rfl] at hrun'
        rw [Descent.runWith_bind_error hrun', if_pos rfl]
      | false =>
        rw [hquit, if_neg (by decide)] at hrun'
        rw [Descent.runWith_bind_ok hrun', if_neg (by decide)]
        rfl

/-- All edits that were recorded below the children. -/
def editsOf (c : Children N) (parts : Location → Part N) : List (Zipper N) :=
  c.located.flatMap fun x => (parts x.1).edits

/-- All stations below the children. -/
def stationsOf (c : Children N) (parts : Location → Part N) : List (List (Crumb N) × N) :=
  c.located.flatMap fun x => (parts x.1).stations

/-- What the walk records **below** a node that was entered. -/
structure RecordsBelow (adapter : Adapter σ N) (inside : N → Prop) (crumbs : List (Crumb N))
    (entered : N) (p q : Progress σ N A) (log : List (Zipper N)) (parts : Location → Part N) :
    Prop where
  records : ∀ l child, (adapter.children entered).at? l = some child →
    Records adapter (⟨entered, l⟩ :: crumbs) child (parts l).edits (parts l).stations
      (parts l).yield
  recorded : Recorded inside p q log (editsOf (adapter.children entered) parts)
    (stationsOf (adapter.children entered) parts)

/-- Nothing below the node is visited. -/
theorem recordsBelow_nil (adapter : Adapter σ N) (inside : N → Prop) (crumbs : List (Crumb N))
    (entered : N) {p : Progress σ N A} {log : List (Zipper N)} (hlog : Logged p.roster log) :
    ∃ parts, RecordsBelow adapter inside crumbs entered p p log parts ∧
      editsOf (adapter.children entered) parts = [] := by
  let parts : Location → Part N := fun l =>
    ⟨[], [], ((adapter.children entered).at? l).toList.map .keep⟩
  have hedits : editsOf (adapter.children entered) parts = [] :=
    List.flatMap_eq_nil_iff.mpr fun _ _ => rfl
  have hstations : stationsOf (adapter.children entered) parts = [] :=
    List.flatMap_eq_nil_iff.mpr fun _ _ => rfl
  refine ⟨parts, ⟨fun l child hchild => ?_, ?_⟩, hedits⟩
  · have hyield : (parts l).yield = [.keep child] := by simp [parts, hchild]
    rw [hyield]
    exact .unreached _ _
  · rw [hedits, hstations]
    exact .nil hlog

/-- **Below a node** the walk records what becomes of the children. -/
theorem recordsBelow (hvisit : RecordsVisit adapter inside plan visitor levels)
    (hplan : plan.children = adapter.children) {entered : Draft N A β} {above : List (Facts N A β)}
    {accumulate : A} {children : Children N}
    (hchildren : children =
      if entered.here.deleted then .empty else plan.children entered.here.node)
    (hroles : (adapter.children entered.here.node).roles.Nodup)
    (hinside : ∀ child ∈ (adapter.children entered.here.node).flatten, inside child)
    {p q : Progress σ N A} {rs : List (Rewritten N A β)} {log : List (Zipper N)}
    (hlog : Logged p.roster log)
    (h : rewriteEach (rewrite .usual plan visitor levels (entered.here :: above))
      (children.located.map fun x => .discover x.2 (some x.1) accumulate) p = (.ok rs, q))
    (hsupplied : ∀ n ∈ q.supplied, inside n) (hnodup : q.roster.Nodup) :
    ∃ parts, RecordsBelow adapter inside (Facts.crumbs entered.here.location above)
        entered.here.node p q log parts ∧
      (entered.here.deleted = true → editsOf (adapter.children entered.here.node) parts = []) ∧
      rs.any Rewritten.touched = !(editsOf (adapter.children entered.here.node) parts).isEmpty ∧
      (entered.here.deleted = false → rebuilt entered.here.node children rs =
        if !(editsOf (adapter.children entered.here.node) parts).isEmpty then
          .rebuild entered.here.node
            ((adapter.children entered.here.node).spread fun l _ => (parts l).yield)
        else
          .keep entered.here.node) ∧
      (children.located.mapM fun x => visit plan visitor levels (entered.here :: above)
        (.discover x.2 (some x.1) accumulate)).runWith (p.course log) =
        (if rs.any Rewritten.halted then .error .quit else .ok (rs.map Rewritten.here),
          q.course (log ++ editsOf (adapter.children entered.here.node) parts)) := by
  cases hdeleted : entered.here.deleted with
  | true =>
    rw [hdeleted, if_pos rfl] at hchildren
    subst hchildren
    simp only [Children.located, Children.empty, List.flatMap_nil, List.map_nil, rewriteEach,
      Prod.mk.injEq, Except.ok.injEq] at h
    obtain ⟨rfl, rfl⟩ := h
    obtain ⟨parts, hbelow, hnone⟩ := recordsBelow_nil adapter inside
      (Facts.crumbs entered.here.location above) entered.here.node hlog
    refine ⟨parts, hbelow, fun _ => hnone, ?_, fun hno => absurd hno (by decide), ?_⟩
    · rw [hnone]
      rfl
    · rw [hnone, List.append_nil]
      rfl
  | false =>
    rw [hdeleted, if_neg (by decide), hplan] at hchildren
    subst hchildren
    have hlist : ∀ x ∈ (adapter.children entered.here.node).located, inside x.2 := fun x hx =>
      hinside x.2 (mem_flatten_of_located hx)
    obtain ⟨outs, ⟨hall, hyields, htouched, hrecorded⟩, hrun⟩ :=
      rewriteEach_recorded hvisit h hlist hsupplied hnodup hlog
    -- locations tell children apart, so each has a part of its own
    obtain ⟨parts, rfl⟩ := exists_keyed (Children.nodup_located hroles) hall.length_eq
    rw [List.forall₂_map_right_iff, List.forall₂_same] at hall
    rw [List.flatMap_map] at htouched hrecorded hrun
    rw [List.flatMap_map] at hrecorded
    rw [List.map_map] at hyields
    refine ⟨parts, ⟨fun l child hchild => ?_, hrecorded⟩,
      fun hno => absurd hno (by decide), htouched,
      fun _ => ?_, hrun⟩
    · exact hall (l, child) ((Children.mem_located hroles).mpr hchild)
    · rw [rebuilt, htouched, Children.spread_regroup (g := fun l => (parts l).yield) hyields]
      rfl

end Each

/-! ### One node -/

omit [DecidableEq κ] [Identified N] in
/-- There are edits of a position if the draft asks for any. -/
theorem isEmpty_own {d : Draft N A β} {met entered : N} {late : Bool} {crumbs : List (Crumb N)}
    {own : List (Zipper N)} (howns : (d.note met entered late).Owns crumbs own) :
    own.isEmpty = !(d.here.changed || d.here.deleted || !d.before.isEmpty || !d.after.isEmpty) := by
  cases own with
  | nil =>
    have hbefore : d.before = [] := (howns.carried .insertBefore).symm
    have hafter : d.after = [] := (howns.carried .insertAfter).symm
    have hchanged : d.here.changed = false := by
      have hreplace := howns.carried .replace
      cases hchanged : d.here.changed
      · rfl
      · simp [Draft.note, Note.carried, hchanged] at hreplace
    have hdeleted : d.here.deleted = false := by
      have hdelete := howns.carried .delete
      cases hdeleted : d.here.deleted
      · rfl
      · simp [Draft.note, Note.carried, hdeleted] at hdelete
    simp [hbefore, hafter, hchanged, hdeleted]
  | cons z own =>
    have hmem : z.node ∈ (d.note met entered late).carried z.edit := by
      rw [← howns.carried z.edit]
      exact List.mem_map.mpr ⟨z, by simp, rfl⟩
    symm
    rw [List.isEmpty_cons, Bool.not_eq_false']
    cases hedit : z.edit with
    | replace =>
      rw [hedit, Draft.note, Note.carried] at hmem
      cases hchanged : d.here.changed <;> simp_all
    | delete =>
      rw [hedit, Draft.note, Note.carried] at hmem
      cases hdeleted : d.here.deleted <;> simp_all
    | insertBefore =>
      rw [hedit, Draft.note, Note.carried] at hmem
      have hne : d.before ≠ [] := List.ne_nil_of_mem hmem
      simp [hne]
    | insertAfter =>
      rw [hedit, Draft.note, Note.carried] at hmem
      have hne : d.after ≠ [] := List.ne_nil_of_mem hmem
      simp [hne]

section Node

variable {adapter : Adapter σ N} {inside : N → Prop} {crumbs : List (Crumb N)} {node : N}
  {p p₁ p₂ q : Progress σ N A} {log own : List (Zipper N)} {d e : Draft N A β}

/-- The record once a node has been **entered**. -/
structure Entered (inside : N → Prop) (crumbs : List (Crumb N)) (node : N) (p q : Progress σ N A)
    (log own : List (Zipper N)) (d : Draft N A β) : Prop where
  owns : (d.note node node false).Owns crumbs own
  new : ∀ z ∈ own, identity z.node ∉ p.roster
  logged : Logged q.roster (log ++ own)
  others : d.here.deleted = false → ∀ z ∈ log ++ own, identity z.node ≠ identity node
  kept : d.here.changed = false → d.here.node = node
  unchanged : d.here.deleted = true → d.here.changed = false
  grows : p.Grows q
  met_mem : identity node ∈ q.roster
  met_notMem : identity node ∉ p.roster
  node_mem : identity d.here.node ∈ q.roster
  node_notMem : identity d.here.node ∉ p.roster
  inside : inside d.here.node

/-- **Entering** a node. -/
theorem enter_recorded {above : List (Facts N A β)} {location : Option Location} {accumulate : A}
    {control : Control} (hvisitor : visitor.Requests Request.IsRecorded)
    (h : revise plan.rootVars visitor .enter above none
      { here := .discover node location accumulate } p = (.ok (control, d), p₁))
    (hnode : inside node) (hsupplied : ∀ n ∈ p₁.supplied, inside n)
    (hnodup : (p₁.meet (identity node)).roster.Nodup) (hlog : Logged p.roster log) :
    ∃ own, (consult plan.rootVars visitor .enter above none
        (.discover node location accumulate)).runWith (p.course log) =
          (.ok (control, d.here), p₁.course (log ++ own)) ∧
      Entered inside (Facts.crumbs location above) node p (p₁.meet (identity node)) log own d ∧
      d.here.location = location ∧
      (location = none → d.before = [] ∧ d.after = []) := by
  obtain ⟨own, -, hp₁⟩ := revise_ok h
  -- what is known once the node is met, and then what the callback supplies
  have hroster : (p₁.meet (identity node)).roster =
      (p.meet (identity node)).roster ++ d.supplied.map identity := by
    rw [hp₁]
    simp [Progress.meet, Progress.roster]
  have hmeet := p.grows_meet (identity node)
  have hmem : identity node ∈ (p.meet (identity node)).roster := List.mem_cons_self
  rw [hroster] at hnodup
  have hnew : identity node ∉ p.roster :=
    (List.nodup_cons.mp (hnodup.sublist (List.sublist_append_left _ _))).1
  let start : Draft N A β := calledOn { here := .discover node location accumulate }
    .enter p.accumulate
  have hstart : Booked (Facts.crumbs location above) node p.roster
    (p.meet (identity node)).roster log
      [] ⟨start.here, some log⟩ start := by
    refine ⟨rfl, fun _ => rfl, fun hno => absurd hno (by simp [start, calledOn, Facts.discover]),
      hmeet.roster_subset, hnew, hmem, [], [], by simp,
      ⟨by simp, fun edit => by cases edit <;> rfl⟩,
      by simp, ?_, fun _ z hz heq => ?_⟩
    · simpa [start, calledOn] using hlog.mono hmeet.roster_subset
    · exact hnew (heq ▸ hlog.known z (by simpa using hz))
  obtain ⟨log', hconsult, hbooked, hsince⟩ := revise_consult h hvisitor hstart hnodup
  obtain ⟨first, last, hedits, howns, hnewer, hlogged, hothers⟩ := hbooked.edits
  rw [List.append_nil, List.append_assoc] at hedits hlogged hothers
  obtain rfl : log' = log ++ (first ++ last) := Option.some.inj hedits
  rw [← hroster] at hlogged
  have hwhere : d.here.node = node ∨ d.here.node ∈ d.supplied := hsince.node_mem
  have hgrows : p.Grows (p₁.meet (identity node)) := by
    have hgrows := revise_grows plan.rootVars visitor .enter above none
      { here := .discover node location accumulate } p
    rw [h] at hgrows
    exact hgrows.trans (p₁.grows_meet _)
  have hmem' : identity d.here.node ∈ (p₁.meet (identity node)).roster := by
    rcases hwhere with hsame | hgiven
    · rw [hsame]
      exact List.mem_cons_self
    · rw [hroster]
      exact List.mem_append_right _ (List.mem_map_of_mem hgiven)
  have hnew' : identity d.here.node ∉ p.roster := by
    rcases hwhere with hsame | hgiven
    · rwa [hsame]
    · intro hold
      exact (List.nodup_append.mp hnodup).2.2 _ (hmeet.roster_subset hold) _
        (List.mem_map_of_mem hgiven) rfl
  have hinside : inside d.here.node := by
    rcases hwhere with hsame | hgiven
    · rwa [hsame]
    · refine hsupplied _ ?_
      rw [hp₁]
      exact List.mem_append_right _ hgiven
  exact ⟨first ++ last, hconsult, ⟨howns, hnewer, hlogged, hothers, hbooked.kept, hbooked.unchanged,
    hgrows, List.mem_cons_self, hnew, hmem', hnew', hinside⟩, hsince.keeps.location, hsince.alone⟩

/-- What is recorded at a node and below it. -/
theorem RecordsBelow.recorded_node {entered : N} {first last : List (Zipper N)}
    {parts : Location → Part N}
    (h : RecordsBelow adapter inside crumbs entered p₁ p₂ (log ++ own) parts)
    (hlogged : Logged q.roster
      (log ++ (first ++ editsOf (adapter.children entered) parts ++ last)))
    (hnew : ∀ z ∈ first ++ last, identity z.node ∉ p.roster)
    (hmem : identity entered ∈ p₁.roster) (hnotMem : identity entered ∉ p.roster)
    (hinside : inside entered) (hgrows : p.Grows p₁) (hgrows₁ : p₁.Grows q)
    (hgrows₂ : p₂.Grows q) :
    Recorded inside p q log (first ++ editsOf (adapter.children entered) parts ++ last)
      ((crumbs, entered) :: stationsOf (adapter.children entered) parts) where
  logged := hlogged
  new := fun z hz => by
    rw [List.append_assoc, List.mem_append, List.mem_append] at hz
    rcases hz with hz | hz | hz
    · exact hnew z (List.mem_append_left _ hz)
    · exact fun hold => h.recorded.new z hz (hgrows.roster_subset hold)
    · exact hnew z (List.mem_append_right _ hz)
  met := fun s hs => by
    rcases List.mem_cons.mp hs with rfl | hs
    · exact ⟨hgrows₁.roster_subset hmem, hnotMem⟩
    · obtain ⟨hin, hout⟩ := h.recorded.met s hs
      exact ⟨hgrows₂.roster_subset hin, fun hold => hout (hgrows.roster_subset hold)⟩
  distinct := by
    rw [List.map_cons, List.nodup_cons]
    refine ⟨fun hin => ?_, h.recorded.distinct⟩
    obtain ⟨s, hs, heq⟩ := List.mem_map.mp hin
    exact (h.recorded.met s hs).2 (heq ▸ hmem)
  inside := fun s hs => by
    rcases List.mem_cons.mp hs with rfl | hs
    · exact hinside
    · exact h.recorded.inside s hs

omit [DecidableEq κ] [Identified N] in
/-- A node was touched if something is recorded. -/
theorem touched_rewritten {first last edits : List (Zipper N)} {met entered : N} {late : Bool}
    (howns : (d.note met entered late).Owns crumbs (first ++ last)) (sketch : Sketch N)
    (halted : Bool) :
    (d.rewritten sketch (!edits.isEmpty) halted).touched = !(first ++ edits ++ last).isEmpty := by
  have hown := isEmpty_own howns
  have hall : (first ++ edits ++ last).isEmpty = (edits.isEmpty && (first ++ last).isEmpty) := by
    cases first <;> cases edits <;> rfl
  rw [hall, hown, Draft.rewritten]
  simp [Bool.or_assoc]

omit [DecidableEq κ] [Identified N] in
/-- What a node yields is what was noted about it. -/
theorem yield_rewritten {met entered : N} {late below : Bool} {children : Children (Sketch N)}
    {sketch : Sketch N} (hsketch : d.here.deleted = false → sketch =
      if late then .keep ((d.note met entered late).given.getD met)
      else if below then .rebuild entered children
      else .keep entered) (touched halted : Bool) :
    (d.rewritten sketch touched halted).yield = (d.note met entered late).yield below children := by
  rw [Draft.rewritten, Note.yield]
  cases hdeleted : d.here.deleted with
  | true =>
    have hgone : (d.note met entered late).deleted = true := hdeleted
    rw [if_pos rfl, if_pos hgone]
    rfl
  | false =>
    have hkept : ¬(d.note met entered late).deleted = true := Bool.eq_false_iff.mp hdeleted
    rw [if_neg (by decide), if_neg hkept, hsketch hdeleted]
    rfl

omit [DecidableEq κ] in
theorem sane_note {met entered : N} {late : Bool} (hkept : d.here.changed = false → entered = met)
    (hdeleted : d.here.deleted = true → d.here.changed = false)
    (hearly : late = false → d.here.changed = true → entered = d.here.node)
    (hlate : late = true → d.here.changed = true ∧ identity d.here.node ≠ identity entered) :
    (d.note met entered late).Sane := by
  cases hchanged : d.here.changed with
  | true =>
    have hgiven : (d.note met entered late).given = some d.here.node := if_pos hchanged
    refine ⟨fun hnone => ?_, fun hno => ?_, fun hyes => ?_, fun hyes => ?_⟩
    · rw [hgiven] at hnone
      exact absurd hnone (by simp)
    · rw [hgiven]
      exact hearly hno hchanged
    · rw [hgiven]
      exact (hlate hyes).2
    · rw [hdeleted hyes] at hchanged
      exact absurd hchanged (by decide)
  | false =>
    have hgiven : (d.note met entered late).given = none :=
      if_neg (Bool.eq_false_iff.mp hchanged)
    refine ⟨fun _ => hkept hchanged, fun _ => ?_, fun hyes => ?_, fun _ => hgiven⟩
    · rw [hgiven]
      exact hkept hchanged
    · rw [(hlate hyes).1] at hchanged
      exact absurd hchanged (by decide)

omit [DecidableEq κ] [Identified N] in
/-- Nothing is inserted at a position where the draft inserts nothing. -/
theorem inserts_own {note : Note N} (howns : note.Owns crumbs own) (hbefore : note.before = [])
    (hafter : note.after = []) {z : Zipper N} (hz : z ∈ own) : z.edit.inserts = false := by
  have hmem : z.node ∈ note.carried z.edit := by
    rw [← howns.carried z.edit]
    exact List.mem_map.mpr ⟨z, by simp [hz], rfl⟩
  cases hedit : z.edit with
  | replace => rfl
  | delete => rfl
  | insertBefore => simp [hedit, Note.carried, hbefore] at hmem
  | insertAfter => simp [hedit, Note.carried, hafter] at hmem

/-- A deletion is the only edit of its position, if nothing is inserted there. -/
theorem own_eq_singleton {note : Note N} (howns : note.Owns crumbs own) (hsane : note.Sane)
    (hbefore : note.before = []) (hafter : note.after = []) {z : Zipper N} (hz : z ∈ own)
    (hedit : z.edit = .delete) : note.deleted = true ∧ own = [z] := by
  have hdeleted : note.deleted = true := by
    have hmem : z.node ∈ note.carried .delete := by
      rw [← howns.carried .delete]
      exact List.mem_map.mpr ⟨z, by simp [hz, hedit], rfl⟩
    rw [Note.carried] at hmem
    by_contra hno
    rw [if_neg hno] at hmem
    exact absurd hmem (by simp)
  refine ⟨hdeleted, ?_⟩
  have hlen : own.length = 1 := by
    have hall : own.filter (fun y => y.edit = .delete) = own := by
      refine List.filter_eq_self.mpr fun y hy => ?_
      have hins := inserts_own howns hbefore hafter hy
      have hreplace := howns.length_filter .replace
      rw [Note.carried, hsane.deleted hdeleted] at hreplace
      have hnot := List.filter_eq_nil_iff.mp (List.length_eq_zero_iff.mp hreplace) y hy
      cases hy : y.edit <;> simp_all [Edit.inserts]
    have hone := howns.length_filter .delete
    rw [hall, Note.carried, if_pos hdeleted] at hone
    exact hone
  obtain ⟨y, rfl⟩ := List.length_eq_one_iff.mp hlen
  rw [List.mem_singleton.mp hz]

omit [DecidableEq κ] in
/-- What is recorded at a node and below it **accounts for** the node. -/
theorem RecordsBelow.accounts {entered : N} {late : Bool} {first last : List (Zipper N)}
    {parts : Location → Part N} {location : Option Location}
    (h : RecordsBelow adapter inside crumbs entered p₁ p₂ (log ++ own) parts)
    (howns : (e.note node entered late).Owns crumbs (first ++ last))
    (hsane : (e.note node entered late).Sane) (hroles : (adapter.children entered).roles.Nodup)
    (hrecorded : Recorded inside p q log
      (first ++ editsOf (adapter.children entered) parts ++ last)
      ((crumbs, entered) :: stationsOf (adapter.children entered) parts))
    {sketch : Sketch N} (hsketch : e.here.deleted = false → sketch =
      if late then .keep ((e.note node entered late).given.getD node)
      else if !(editsOf (adapter.children entered) parts).isEmpty then
        .rebuild entered ((adapter.children entered).spread fun l _ => (parts l).yield)
      else .keep entered) (halted gone : Bool)
    (halone : location = none → e.before = [] ∧ e.after = [])
    (hgone : gone = false → e.here.deleted = true →
      editsOf (adapter.children entered) parts = []) :
    ∃ part : Part N, part.edits = first ++ editsOf (adapter.children entered) parts ++ last ∧
      part.AccountsFor adapter inside crumbs location node p q log
        { e.rewritten sketch (!(editsOf (adapter.children entered) parts).isEmpty) halted with
          deletedLeaving := gone } := by
  let edits : Location → List (Zipper N) := fun l => (parts l).edits
  -- edits of this very position are not among those below
  have hown :
      ∀ z ∈ first ++ ((adapter.children entered).located.flatMap fun x => edits x.1) ++ last,
      z.crumbs = crumbs → z ∈ first ++ last := by
    intro z hz hcrumbs
    rcases (Records.mem_record hroles).mp hz with hz | ⟨l, child, hchild, hz⟩
    · exact hz
    · have hsuffix := (h.records l child hchild).suffix hz
      rw [hcrumbs] at hsuffix
      exact absurd hsuffix Records.not_cons_suffix
  have hrecords := Records.reached hsane howns hroles h.records
  have hyield := yield_rewritten hsketch (!(editsOf (adapter.children entered) parts).isEmpty)
    halted
  refine ⟨⟨_, _, _⟩, rfl, ⟨hrecords, hyield, touched_rewritten howns sketch halted, hrecorded,
    fun hroot z hz hcrumbs => ?_, fun hroot hkept z hz hcrumbs hedit => ?_⟩⟩
  · exact inserts_own howns (halone hroot).1 (halone hroot).2 (hown z hz hcrumbs)
  · obtain ⟨hdeleted, hone⟩ := own_eq_singleton howns hsane (halone hroot).1 (halone hroot).2
      (hown z hz hcrumbs) hedit
    have hnone := hgone hkept hdeleted
    change first ++ editsOf (adapter.children entered) parts ++ last = [z]
    rw [hnone, List.append_nil, hone]

omit [DecidableEq κ] in
/-- A node that is **not left** has what was recorded on entering it, and below. -/
theorem Entered.stays (h : Entered inside crumbs node p p₁ log own d) {parts : Location → Part N}
    {location : Option Location} (hroles : (adapter.children d.here.node).roles.Nodup)
    (hbelow : RecordsBelow adapter inside crumbs d.here.node p₁ q (log ++ own) parts)
    (hgrows : p₁.Grows q) {sketch : Sketch N} {halted : Bool}
    (hsketch : d.here.deleted = false → sketch =
      if !(editsOf (adapter.children d.here.node) parts).isEmpty then
        .rebuild d.here.node ((adapter.children d.here.node).spread fun l _ => (parts l).yield)
      else
        .keep d.here.node)
    (halone : location = none → d.before = [] ∧ d.after = [])
    (hgone : d.here.deleted = true → editsOf (adapter.children d.here.node) parts = []) :
    ∃ part : Part N, part.edits = own ++ editsOf (adapter.children d.here.node) parts ∧
      part.AccountsFor adapter inside crumbs location node p q log
        (d.rewritten sketch (!(editsOf (adapter.children d.here.node) parts).isEmpty) halted) := by
  have hsane : (d.note node d.here.node false).Sane :=
    sane_note h.kept h.unchanged (fun _ _ => rfl) fun hno => absurd hno (by decide)
  have howns : (d.note node d.here.node false).Owns crumbs (own ++ []) := by
    rw [List.append_nil]
    exact h.owns.of_carried fun edit => by cases edit <;> rfl
  have hlogged : Logged q.roster
      (log ++ (own ++ editsOf (adapter.children d.here.node) parts ++ [])) := by
    rw [List.append_nil, ← List.append_assoc]
    exact hbelow.recorded.logged
  have hnew : ∀ z ∈ own ++ [], identity z.node ∉ p.roster := by
    rw [List.append_nil]
    exact h.new
  have hrecorded := hbelow.recorded_node hlogged hnew h.node_mem h.node_notMem h.inside h.grows
    hgrows (.refl q)
  obtain ⟨part, hedits, hpart⟩ := hbelow.accounts howns hsane hroles hrecorded hsketch halted
    false halone fun _ => hgone
  rw [List.append_nil] at hedits
  exact ⟨part, hedits, hpart⟩

omit [DecidableEq κ] in
/-- When a node is about to be left, the record holds what was recorded on entering it, and below. -/
theorem Entered.booked (h : Entered inside crumbs node p p₁ log own d) {parts : Location → Part N}
    (hbelow : RecordsBelow adapter inside crumbs d.here.node p₁ p₂ (log ++ own) parts)
    (hgrows : p₁.Grows p₂) :
    Booked crumbs node p.roster p₂.roster log (editsOf (adapter.children d.here.node) parts)
      ⟨(calledOn d .leave p₂.accumulate).here,
        some (log ++ own ++ editsOf (adapter.children d.here.node) parts)⟩
      (calledOn d .leave p₂.accumulate) := by
  refine ⟨rfl, h.kept, h.unchanged, (h.grows.trans hgrows).roster_subset, h.met_notMem,
    hgrows.roster_subset h.met_mem, own, [], by simp, ?_, ?_, ?_, fun hkept z hz => ?_⟩
  · rw [List.append_nil]
    exact h.owns
  · rw [List.append_nil]
    exact h.new
  · simpa [calledOn] using hbelow.recorded.logged
  · rw [List.append_nil] at hz
    rcases List.mem_append.mp hz with hz | hz
    · exact h.others hkept z hz
    · exact fun heq => hbelow.recorded.new z hz (heq ▸ h.met_mem)

omit [DecidableEq κ] in
/-- A node that is given on leaving was not known before, so it is none that was gone through. -/
theorem Entered.sane_left (h : Entered inside crumbs node p p₁ log own d) {accumulate : A}
    (hsince : (calledOn d .leave accumulate).Since e)
    (hunchanged : e.here.deleted = true → e.here.changed = false)
    (hnew : ∀ n ∈ e.supplied, identity n ≠ identity d.here.node) :
    (e.note node d.here.node e.given.isSome).Sane := by
  refine sane_note (fun hno => ?_) hunchanged (fun hno _ => ?_) fun hyes => ?_
  · cases hgiven : e.given with
    | none => exact h.kept ((hsince.still hgiven).2.symm.trans hno)
    | some given =>
      rw [(hsince.last given hgiven).2.1] at hno
      exact absurd hno (by decide)
  · exact (hsince.still (Option.not_isSome_iff_eq_none.mp (Bool.eq_false_iff.mp hno))).1.symm
  · obtain ⟨given, hgiven⟩ := Option.isSome_iff_exists.mp hyes
    obtain ⟨rfl, hchanged, hmem⟩ := hsince.last given hgiven
    exact ⟨hchanged, hnew _ hmem⟩

omit [Identified N] [DecidableEq κ] in
/-- A node that is given on leaving stands for itself, whatever was edited beneath. -/
theorem sketch_left {accumulate : A} {stays sketch : Sketch N}
    (hsince : (calledOn d .leave accumulate).Since e)
    (hsketch : d.here.deleted = false → sketch = stays) (hkept : e.here.deleted = false) :
    e.given.elim sketch .keep =
      if e.given.isSome then .keep ((e.note node d.here.node e.given.isSome).given.getD node)
      else stays := by
  cases hgiven : e.given with
  | none =>
    refine hsketch (Bool.eq_false_iff.mpr fun hdeleted => ?_)
    rw [hsince.gone hdeleted] at hkept
    exact absurd hkept (by decide)
  | some given =>
    obtain ⟨rfl, hchanged, -⟩ := hsince.last given hgiven
    have hnoted : (e.note node d.here.node true).given = some e.here.node := if_pos hchanged
    simp [hnoted]

/-- **Leaving** a node. -/
theorem Entered.leaves {above : List (Facts N A β)}
    (h : Entered inside (Facts.crumbs d.here.location above) node p p₁ log own d)
    {parts : Location → Part N} (hroles : (adapter.children d.here.node).roles.Nodup)
    (hbelow : RecordsBelow adapter inside (Facts.crumbs d.here.location above) d.here.node p₁ p₂
      (log ++ own) parts) (hgrows : p₁.Grows p₂)
    (hvisitor : visitor.Requests Request.IsRecorded) {below : Option (Children (Facts N A β))}
    {control : Control}
    (hleave : revise plan.rootVars visitor .leave above below d p₂ = (.ok (control, e), q))
    (hnodup : q.roster.Nodup) {sketch : Sketch N} (halted : Bool)
    (hsketch : d.here.deleted = false → sketch =
      if !(editsOf (adapter.children d.here.node) parts).isEmpty then
        .rebuild d.here.node ((adapter.children d.here.node).spread fun l _ => (parts l).yield)
      else
        .keep d.here.node)
    (halone : d.here.location = none → d.before = [] ∧ d.after = [])
    (hgone : d.here.deleted = true → editsOf (adapter.children d.here.node) parts = []) :
    ∃ part : Part N,
      (consult plan.rootVars visitor .leave above below d.here).runWith
        (p₂.course (log ++ own ++ editsOf (adapter.children d.here.node) parts)) =
          (.ok (control, e.here), q.course (log ++ part.edits)) ∧
      part.AccountsFor adapter inside (Facts.crumbs d.here.location above) d.here.location node p q
        log (e.left d sketch (!(editsOf (adapter.children d.here.node) parts).isEmpty) halted) := by
  obtain ⟨own', -, hq⟩ := revise_ok hleave
  have hroster : q.roster = p₂.roster ++ e.supplied.map identity := by
    rw [hq]
    simp [Progress.roster]
  have hgrows' : p₂.Grows q := by
    have hgrows' := revise_grows plan.rootVars visitor .leave above below d p₂
    rwa [hleave] at hgrows'
  rw [hroster] at hnodup
  obtain ⟨log', hconsult, hbooked, hsince⟩ :=
    revise_consult hleave hvisitor (h.booked hbelow hgrows) hnodup
  obtain ⟨first, last, hedits, howns, hnewer, hlogged, -⟩ := hbooked.edits
  obtain rfl : log' = log ++ first ++ editsOf (adapter.children d.here.node) parts ++ last :=
    Option.some.inj hedits
  have hsane := h.sane_left hsince hbooked.unchanged fun n hn heq =>
    (List.nodup_append.mp hnodup).2.2 _ (hgrows.roster_subset h.node_mem) _
      (List.mem_map_of_mem hn) heq.symm
  have howns' : (e.note node d.here.node e.given.isSome).Owns
      (Facts.crumbs d.here.location above) (first ++ last) :=
    howns.of_carried fun edit => by cases edit <;> rfl
  have hlogged' : Logged q.roster
      (log ++ (first ++ editsOf (adapter.children d.here.node) parts ++ last)) := by
    rw [hroster]
    simpa using hlogged
  have hrecorded := hbelow.recorded_node hlogged' hnewer h.node_mem h.node_notMem h.inside h.grows
    (hgrows.trans hgrows') hgrows'
  have halone' : d.here.location = none → e.before = [] ∧ e.after = [] := fun hroot => by
    obtain ⟨hbefore, hafter⟩ := hsince.alone hroot
    exact ⟨hbefore.trans (halone hroot).1, hafter.trans (halone hroot).2⟩
  have hgone' : (e.here.deleted && !d.here.deleted) = false → e.here.deleted = true →
      editsOf (adapter.children d.here.node) parts = [] := fun hkept hdeleted => by
    rw [hdeleted, Bool.true_and, Bool.not_eq_false'] at hkept
    exact hgone hkept
  obtain ⟨part, hpartEdits, hpart⟩ := hbelow.accounts howns' hsane hroles hrecorded
    (sketch_left hsince hsketch) halted _ halone' hgone'
  refine ⟨part, ?_, hpart⟩
  rw [hpartEdits, hconsult]
  simp

end Node

/-! ### Whole walks -/

section Visits

variable {adapter : Adapter σ N} {inside : N → Prop} (hplan : plan.children = adapter.children)
  (hvisitor : visitor.Requests Request.IsRecorded)
  (hclosed : ∀ n, inside n → ∀ child ∈ (adapter.children n).flatten, inside child)
  (hroles : ∀ n, inside n → (adapter.children n).roles.Nodup)

include hplan hvisitor hclosed hroles

/-- The children of a node, and leaving it. -/
theorem rewriteBelow_recorded {levels : Nat}
    (hvisit : RecordsVisit adapter inside plan visitor levels)
    {above : List (Facts N A β)} {node : N}
    {p p₁ q : Progress σ N A} {log own : List (Zipper N)} {d : Draft N A β} {r : Rewritten N A β}
    (hentered : Entered inside (Facts.crumbs d.here.location above) node p p₁ log own d)
    (halone : d.here.location = none → d.before = [] ∧ d.after = [])
    (h : rewriteBelow .usual plan visitor (rewrite .usual plan visitor levels (d.here :: above))
      above .proceed d p₁ = (.ok r, q))
    (hsupplied : ∀ n ∈ q.supplied, inside n) (hnodup : q.roster.Nodup) {children : Children N}
    (hchildren : children = if d.here.deleted then .empty else plan.children d.here.node) :
    ∃ part : Part N,
      part.AccountsFor adapter inside (Facts.crumbs d.here.location above) d.here.location node p q
        log r ∧
      ((children.located.mapM fun x => visit plan visitor levels (d.here :: above)
          (.discover x.2 (some x.1) p₁.accumulate)) >>= fun below =>
        consult plan.rootVars visitor .leave above (some (children.regroup below)) d.here >>=
          fun x => heed above x.2 x.1).runWith (p₁.course (log ++ own)) =
        (if r.halted then .error .quit else .ok r.here, q.course (log ++ part.edits)) := by
  obtain ⟨rs, p₂, hbelow, hrest⟩ := rewriteBelow_cases hchildren h
  have hgrows : p₁.Grows p₂ := by
    have hgrows := rewriteEach_grows (rewrite_grows plan visitor levels (d.here :: above))
      (children.located.map fun x => .discover x.2 (some x.1) p₁.accumulate) p₁
    rwa [hbelow] at hgrows
  have hinside := hentered.inside
  have hparts := recordsBelow hvisit hplan hchildren (hroles _ hinside) (hclosed _ hinside)
    hentered.logged hbelow
  rcases hrest with ⟨hquit, rfl, rfl⟩ | ⟨hquit, halted, e, hleave, rfl⟩
  · -- a callback below quit, and the node is not left
    obtain ⟨parts, hrecords, hgone, htouched, hsketch, hrun⟩ := hparts hsupplied hnodup
    obtain ⟨part, hedits, hpart⟩ := hentered.stays (hroles _ hinside) hrecords hgrows hsketch halone
      hgone
    rw [hquit, if_pos rfl] at hrun
    refine ⟨part, htouched ▸ hpart, ?_⟩
    rw [Descent.runWith_bind_error hrun, hedits, List.append_assoc]
    rfl
  · have hgrows' : p₂.Grows q := by
      have hgrows' := revise_grows plan.rootVars visitor .leave above
        (some (children.regroup (rs.map Rewritten.here))) d p₂
      rwa [hleave] at hgrows'
    obtain ⟨parts, hrecords, hgone, htouched, hsketch, hrun⟩ := hparts
      (fun n hn => hsupplied n (hgrows'.supplied.subset hn)) (hgrows'.nodup hnodup)
    obtain ⟨part, hconsult, hpart⟩ := hentered.leaves (hroles _ hinside) hrecords hgrows hvisitor
      hleave hnodup halted hsketch halone hgone
    rw [hquit, if_neg (by decide)] at hrun
    refine ⟨part, htouched ▸ hpart, ?_⟩
    rw [Descent.runWith_bind_ok hrun, Descent.runWith_bind_ok hconsult]
    cases halted <;> rfl

/-- **A walk records what its rewrite comes to**, as long as no identity is known twice. -/
theorem recordsVisit (levels : Nat) : RecordsVisit adapter inside plan visitor levels := by
  induction levels with
  | zero =>
    intro above node location accumulate p q r log h
    simp [rewrite] at h
  | succ levels ih =>
    intro above node location accumulate p q r log h hnode hsupplied hnodup hlog
    obtain ⟨control, d, p₁, henter, hrest⟩ := rewrite_cases h
    have hgrows : (p₁.meet (identity node)).Grows q := by
      rcases hrest with ⟨-, hbelow⟩ | ⟨halted, -, -, rfl⟩
      · have hgrows := rewriteBelow_grows plan visitor
          (rewrite_grows plan visitor levels (d.here :: above)) above .proceed d
          (p₁.meet (identity node))
        rwa [show rewriteBelow _ _ _ _ _ _ _ (p₁.meet (identity node)) = _ from hbelow] at hgrows
      · exact .refl _
    obtain ⟨own, hconsult, hentered, rfl, halone⟩ := enter_recorded hvisitor henter hnode
      (fun n hn => hsupplied n (hgrows.supplied.subset hn)) (hgrows.nodup hnodup) hlog
    -- no identity is known twice, so the node is met for the first time
    have hfirst : (p.course log).visited.contains (identity node) = false := by
      rw [List.contains_eq_mem, decide_eq_false_iff_not]
      exact fun hmem => hentered.met_notMem (List.mem_append_left _ hmem)
    rw [runWith_visit_first hfirst, hconsult]
    rcases hrest with ⟨rfl, hbelow⟩ | ⟨halted, rfl, rfl, rfl⟩
    · exact rewriteBelow_recorded hplan hvisitor hclosed hroles ih hentered halone hbelow hsupplied
        hnodup rfl
    · -- the children are not visited, and the node is not left
      obtain ⟨parts, hrecords, hnone⟩ := recordsBelow_nil adapter inside
        (Facts.crumbs d.here.location above) d.here.node hentered.logged
      obtain ⟨part, hedits, hpart⟩ := hentered.stays (hroles _ hentered.inside) hrecords (.refl _)
        (fun _ => by rw [hnone]) halone fun _ => hnone
      rw [hnone, List.append_nil] at hedits
      rw [hnone] at hpart
      refine ⟨part, hpart, ?_⟩
      rw [hedits]
      cases halted <;> rfl

end Visits

end Traversal

end Arborist
