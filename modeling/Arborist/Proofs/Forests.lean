import Arborist.Proofs.Recording
import Mathlib

/-!
# Forests

The nodes that a rewrite comes across are those of the tree that it starts from, and of the trees
that callbacks supply. If no identity occurs twice in this **forest**, then none is met or supplied
twice.

* `Adapter.Forest` lists all nodes of some finite trees.
* `Draws` says that what a part of a rewrite meets and supplies is drawn from a forest, and
  `rewrite_draws` that it is drawn from the trees below the node and below what is supplied
  meanwhile. Identities are counted on both sides, so that `omega` can add the parts up.
* `rewrite_error`: a rewrite that is cut off has met a node on every level. So in a finite forest
  there are levels enough.
-/

namespace Arborist

variable {σ N A κ : Type} {β : κ → Type}

/-! ### All nodes of some trees -/

/-- `all` are the nodes of the **finite trees** below the given nodes. -/
inductive Adapter.Forest (adapter : Adapter σ N) : List N → List N → Prop where
  | nil : Forest adapter [] []
  | cons {node : N} {rest below others : List N}
      (down : Forest adapter (adapter.children node).flatten below)
      (across : Forest adapter rest others) :
      Forest adapter (node :: rest) (node :: (below ++ others))

namespace Adapter.Forest

variable {adapter : Adapter σ N} {xs ys all others : List N}

theorem append (hx : adapter.Forest xs all) (hy : adapter.Forest ys others) :
    adapter.Forest (xs ++ ys) (all ++ others) := by
  induction hx with
  | nil => exact hy
  | cons down _ _ ih =>
    rw [List.cons_append, List.cons_append, List.append_assoc]
    exact .cons down ih

/-- A single tree. -/
theorem tree {node : N} {below : List N} (h : adapter.Forest xs below)
    (hxs : (adapter.children node).flatten = xs) : adapter.Forest [node] (node :: below) := by
  subst hxs
  have htree := h.cons .nil
  rwa [List.append_nil] at htree

theorem split (h : adapter.Forest (xs ++ ys) all) :
    ∃ first last, all = first ++ last ∧ adapter.Forest xs first ∧ adapter.Forest ys last := by
  induction xs generalizing all with
  | nil => exact ⟨[], all, rfl, .nil, h⟩
  | cons x xs ih =>
    cases h with
    | cons down across =>
      obtain ⟨first, last, rfl, hfirst, hlast⟩ := ih across
      exact ⟨_, last, by simp, .cons down hfirst, hlast⟩

/-- The roots of a forest are among its nodes. -/
theorem sublist (h : adapter.Forest xs all) : xs.Sublist all := by
  induction h with
  | nil => exact .slnil
  | cons _ _ _ ih => exact (ih.trans (List.sublist_append_right _ _)).cons_cons _

/-- A forest has the children of its nodes, too. -/
theorem closed (h : adapter.Forest xs all) {n : N} (hn : n ∈ all) :
    (adapter.children n).flatten.Sublist all := by
  induction h with
  | nil => simp at hn
  | cons down _ ihDown ihAcross =>
    rw [List.mem_cons, List.mem_append] at hn
    rcases hn with rfl | hn | hn
    · exact (down.sublist.trans (List.sublist_append_left _ _)).cons _
    · exact ((ihDown hn).trans (List.sublist_append_left _ _)).cons _
    · exact ((ihAcross hn).trans (List.sublist_append_right _ _)).cons _

end Adapter.Forest

namespace Traversal

variable [Identified N]

/-! ### What a rewrite comes across -/

/-- What was met and supplied on the way from `p` to `q` is **drawn** from the trees below some
nodes and below what was supplied: no identity more often than it occurs there. -/
def Draws (adapter : Adapter σ N) (nodes : List N) (p q : Progress σ N A) : Prop :=
  ∃ met supplied, q.visited = met ++ p.visited ∧ q.supplied = p.supplied ++ supplied ∧
    ∀ all, adapter.Forest (nodes ++ supplied) all → ∀ i,
      met.count i + (supplied.map identity).count i ≤ (all.map identity).count i

namespace Draws

variable {adapter : Adapter σ N} {xs ys : List N} {p p₁ q r : Progress σ N A}

/-- Nothing was met or supplied. -/
theorem of_same (nodes : List N) (hvisited : q.visited = p.visited)
    (hsupplied : q.supplied = p.supplied) : Draws adapter nodes p q :=
  ⟨[], [], by simpa using hvisited, by simpa using hsupplied, by simp⟩

/-- One part after the other. -/
theorem append (h : Draws adapter xs p q) (h' : Draws adapter ys q r) :
    Draws adapter (xs ++ ys) p r := by
  obtain ⟨met, supplied, hvisited, hsupplied, hcount⟩ := h
  obtain ⟨met', supplied', hvisited', hsupplied', hcount'⟩ := h'
  refine ⟨met' ++ met, supplied ++ supplied', by simp [hvisited', hvisited],
    by simp [hsupplied', hsupplied], fun all hall i => ?_⟩
  obtain ⟨_, _, rfl, hnodes, hmore⟩ := hall.split
  obtain ⟨_, _, rfl, hxs, hys⟩ := hnodes.split
  obtain ⟨_, _, rfl, hfirst, hlast⟩ := hmore.split
  have hx := hcount _ (hxs.append hfirst) i
  have hy := hcount' _ (hys.append hlast) i
  simp only [List.map_append, List.count_append] at hx hy ⊢
  omega

/-- What does not come from the nodes at all is drawn from any. -/
theorem of_nil (nodes : List N) (h : Draws adapter [] p q) : Draws adapter nodes p q := by
  have hall := (of_same nodes rfl rfl).append h
  rwa [List.append_nil] at hall

/-- What is supplied is drawn from itself. -/
theorem of_supplied {supplied : List N} (hvisited : q.visited = p.visited)
    (hsupplied : q.supplied = p.supplied ++ supplied) : Draws adapter [] p q := by
  refine ⟨[], supplied, by simpa using hvisited, hsupplied, fun all hall i => ?_⟩
  have hle := (hall.sublist.map identity).count_le i
  simpa using hle

/-- **Entering a node** meets it, and then draws from the trees below the node that it goes on with:
the node itself, or one that was supplied. -/
theorem of_entered {node entered : N} {supplied : List N}
    (hentered : entered = node ∨ entered ∈ supplied) (hvisited : p₁.visited = p.visited)
    (hsupplied : p₁.supplied = p.supplied ++ supplied)
    (h : Draws adapter (adapter.children entered).flatten (p₁.meet (identity node)) q) :
    Draws adapter [node] p q := by
  obtain ⟨met, supplied', hmet, hmore, hcount⟩ := h
  refine ⟨met ++ [identity node], supplied ++ supplied', by simp [hmet, Progress.meet, hvisited],
    by simp [hmore, Progress.meet, hsupplied], fun all hall i => ?_⟩
  rw [List.singleton_append] at hall
  cases hall with
  | cons down across =>
    obtain ⟨_, _, rfl, hgiven, hlater⟩ := across.split
    rcases hentered with rfl | hentered
    · have hbelow := hcount _ (down.append hlater) i
      have hle := (hgiven.sublist.map identity).count_le i
      simp only [List.map_append, List.map_cons, List.count_append, List.count_cons,
        List.count_nil] at hbelow hle ⊢
      omega
    · -- the tree below the supplied node lies between the trees below the others
      obtain ⟨front, back, rfl⟩ := List.append_of_mem hentered
      obtain ⟨_, _, rfl, hfront, hback⟩ := hgiven.split
      cases hback with
      | cons down' hback =>
        have hbelow := hcount _ (down'.append hlater) i
        have hle := (hfront.sublist.map identity).count_le i
        have hle' := (hback.sublist.map identity).count_le i
        simp only [List.map_append, List.map_cons, List.count_append, List.count_cons,
          List.count_nil] at hbelow hle hle' ⊢
        omega

end Draws

variable [DecidableEq κ] {plan : Plan N A β} {visitor : SightVisitor σ N A β}
  {adapter : Adapter σ N}

theorem revise_draws (rootVars : Vars β) (visitor : SightVisitor σ N A β) (phase : Phase)
    (above : List (Facts N A β)) (below : Option (Children (Facts N A β))) (d : Draft N A β)
    (p : Progress σ N A) :
    Draws adapter [] p (revise rootVars visitor phase above below d p).2 := by
  rw [revise]
  split
  · exact .of_supplied rfl rfl
  · exact .of_same [] rfl rfl

omit [DecidableEq κ] in
theorem rewriteEach_draws
    {one : Facts N A β → Progress σ N A → Except Stop (Rewritten N A β) × Progress σ N A}
    {mets : List (Facts N A β)}
    (hone : ∀ met ∈ mets, ∀ p, Draws adapter [met.node] p (one met p).2) (p : Progress σ N A) :
    Draws adapter (mets.map Facts.node) p (rewriteEach one mets p).2 := by
  induction mets generalizing p with
  | nil => exact .of_same [] rfl rfl
  | cons met rest ih =>
    have hmet := hone met List.mem_cons_self p
    have hrest := ih fun met hmem => hone met (List.mem_cons_of_mem _ hmem)
    rw [rewriteEach]
    generalize one met p = result at hmet ⊢
    obtain ⟨out, q⟩ := result
    cases out with
    | error stop => exact hmet.append (.of_same _ rfl rfl)
    | ok r =>
      dsimp only
      split
      · exact hmet.append (.of_same _ rfl rfl)
      · specialize hrest q
        generalize rewriteEach one rest q = results at hrest ⊢
        obtain ⟨outs, q'⟩ := results
        cases outs with
        | error stop => exact hmet.append hrest
        | ok rs => exact hmet.append hrest

theorem rewriteLeft_draws (plan : Plan N A β) (visitor : SightVisitor σ N A β)
    (above : List (Facts N A β)) (entered : Draft N A β) (children : Children N)
    (rs : List (Rewritten N A β)) (p : Progress σ N A) :
    Draws adapter [] p (rewriteLeft plan visitor above entered children rs p).2 := by
  have hleave : Draws adapter [] p _ := revise_draws plan.rootVars visitor .leave above
    (some (children.regroup (rs.map Rewritten.here))) entered p
  rw [rewriteLeft]
  generalize revise plan.rootVars visitor .leave above
    (some (children.regroup (rs.map Rewritten.here))) entered p = left at hleave ⊢
  obtain ⟨_ | ⟨_ | _ | _, d⟩, q⟩ := left <;> exact hleave

theorem rewriteBelow_draws (visitor : SightVisitor σ N A β)
    (hplan : plan.children = adapter.children)
    {one : Facts N A β → Progress σ N A → Except Stop (Rewritten N A β) × Progress σ N A}
    (hone : ∀ node location accumulate p,
      Draws adapter [node] p (one (.discover node location accumulate) p).2)
    (above : List (Facts N A β)) (control : Control) (entered : Draft N A β)
    (p : Progress σ N A) :
    Draws adapter (adapter.children entered.here.node).flatten p
      (rewriteBelow .usual plan visitor one above control entered p).2 := by
  rw [rewriteBelow]
  obtain ⟨children, hchildren⟩ : ∃ children : Children N, children =
    (if entered.here.deleted || control = .abort then .empty
      else plan.children entered.here.node) := ⟨_, rfl⟩
  rw [← hchildren]
  have hbelow : Draws adapter children.flatten p (rewriteEach one
      (children.located.map fun x => .discover x.2 (some x.1) p.accumulate) p).2 := by
    have heach : Draws adapter (List.map Facts.node _) p (rewriteEach one
        (children.located.map fun x => .discover x.2 (some x.1) p.accumulate) p).2 :=
      rewriteEach_draws (fun met hmet p => by
        obtain ⟨x, -, rfl⟩ := List.mem_map.mp hmet
        exact hone x.2 (some x.1) _ p) p
    rw [List.map_map] at heach
    have hnodes : children.located.map ((Facts.node : Facts N A β → N) ∘ fun x =>
        .discover x.2 (some x.1) p.accumulate) = children.flatten := children.map_located
    rwa [hnodes] at heach
  -- children that are passed over are not drawn from
  have hall : Draws adapter (adapter.children entered.here.node).flatten p (rewriteEach one
      (children.located.map fun x => .discover x.2 (some x.1) p.accumulate) p).2 := by
    rw [hchildren] at hbelow ⊢
    split at hbelow
    · rw [if_pos ‹_›]
      exact .of_nil _ hbelow
    · rw [if_neg ‹_›, ← hplan]
      exact hbelow
  generalize rewriteEach one _ p = results at hall ⊢
  obtain ⟨_ | rs, q⟩ := results
  · exact hall
  · dsimp only
    split
    · have hleft := hall.append (rewriteLeft_draws plan visitor above entered children rs q)
      rwa [List.append_nil] at hleft
    · exact hall

/-- **What a rewrite meets and supplies** is drawn from the tree below its node, and from the trees
below what is supplied. -/
theorem rewrite_draws (visitor : SightVisitor σ N A β) (hplan : plan.children = adapter.children)
    (levels : Nat)
    (above : List (Facts N A β)) (node : N) (location : Option Location) (accumulate : A)
    (p : Progress σ N A) :
    Draws adapter [node] p
      (rewrite .usual plan visitor levels above (.discover node location accumulate) p).2 := by
  induction levels generalizing above node location accumulate p with
  | zero => exact .of_same _ rfl rfl
  | succ levels ih =>
    have henter : Draws adapter [] p _ := revise_draws plan.rootVars visitor .enter above none
      { here := .discover node location accumulate } p
    rw [rewrite]
    cases hrun : revise plan.rootVars visitor .enter above none
      { here := .discover node location accumulate } p with
    | mk out p₁ =>
      rw [hrun] at henter
      cases out with
      | error stop => exact .of_nil _ henter
      | ok entered =>
        obtain ⟨control, d⟩ := entered
        obtain ⟨own, -, hp₁⟩ := revise_ok hrun
        have hentered : d.here.node = node ∨ d.here.node ∈ d.supplied :=
          (revise_since hrun).node_mem
        have hbelow := rewriteBelow_draws visitor hplan (ih (d.here :: above)) above
          control d (p₁.meet (identity node))
        have hdraws : ∀ q, Draws adapter (adapter.children d.here.node).flatten
            (p₁.meet (identity node)) q → Draws adapter [node] p q := fun q =>
          .of_entered hentered (by rw [hp₁]) (by rw [hp₁])
        cases control with
        | quit => exact hdraws _ (.of_same _ rfl rfl)
        | abort => exact hdraws _ hbelow
        | proceed => exact hdraws _ hbelow

/-! ### Visitors that never fail -/

end Traversal

namespace Program

variable {V Q S α : Type}

/-- The program ends with a result that satisfies `P`, whatever it sees and is answered. -/
def Ends (P : α → Prop) : Program V Q α → Prop
  | .done a => P a
  | .look next => ∀ v, (next v).Ends P
  | .ask _ next => ∀ r, (next r).Ends P

theorem Ends.run {P : α → Prop} {p : Program V Q α} (h : p.Ends P) (view : S → V)
    (perform : Q → Attempt S Unit) (s : S) : P (p.run view perform s).1 := by
  induction p generalizing s with
  | done a => exact h
  | look next ih => exact ih _ (h _) s
  | ask q next ih => exact ih _ (h _) _

end Program

/-- A visitor **complies** with the rules: it never fails, and passes over children only when it
enters a node. -/
def Visitor.Complies {V Q : Type} (visitor : Visitor σ V Q) : Prop :=
  ∀ phase own, Program.Ends (fun out => ∃ control, out.1 = .ok control ∧
    (control = .abort → phase = .enter)) (visitor.on phase own)

namespace Traversal

variable [Identified N] [DecidableEq κ] {plan : Plan N A β} {visitor : SightVisitor σ N A β}

theorem revise_complies (h : visitor.Complies) (rootVars : Vars β) (phase : Phase)
    (above : List (Facts N A β)) (below : Option (Children (Facts N A β))) (d : Draft N A β)
    (p : Progress σ N A) :
    ∃ control e q, revise rootVars visitor phase above below d p = (.ok (control, e), q) ∧
      (control = .abort → phase = .enter) := by
  obtain ⟨control, hout, habort⟩ := (h phase p.own).run
    (fun d : Draft N A β => ⟨d.here, above, below, rootVars, p.visited⟩)
    (Draft.perform (Facts.crumbs d.here.location above)) (calledOn d phase p.accumulate)
  rw [revise]
  split
  · next control' own e hrun =>
    rw [show Program.run _ _ (visitor.on phase p.own) (calledOn d phase p.accumulate) = _ from hrun]
      at hout
    obtain rfl : control' = control := Except.ok.inj hout
    exact ⟨control', e, _, rfl, habort⟩
  · next error own e hrun =>
    rw [show Program.run _ _ (visitor.on phase p.own) (calledOn d phase p.accumulate) = _ from hrun]
      at hout
    cases hout

theorem rewriteLeft_complies (h : visitor.Complies) (plan : Plan N A β) (above : List (Facts N A β))
    (entered : Draft N A β) (children : Children N) (rs : List (Rewritten N A β))
    (p : Progress σ N A) :
    ∃ r q, rewriteLeft plan visitor above entered children rs p = (.ok r, q) := by
  obtain ⟨control, e, q, hleave, habort⟩ := revise_complies h plan.rootVars .leave above
    (some (children.regroup (rs.map Rewritten.here))) entered p
  rw [rewriteLeft, hleave]
  cases control with
  | proceed => exact ⟨_, q, rfl⟩
  | quit => exact ⟨_, q, rfl⟩
  | abort => exact absurd (habort rfl) (by decide)

omit [DecidableEq κ] in
/-- Rewriting nodes one after the other stops where one of the rewrites does. -/
theorem rewriteEach_error
    {one : Facts N A β → Progress σ N A → Except Stop (Rewritten N A β) × Progress σ N A}
    (hgrows : ∀ met (p : Progress σ N A), p.Grows (one met p).2) {mets : List (Facts N A β)}
    {p q : Progress σ N A} {stop : Stop} (h : rewriteEach one mets p = (.error stop, q)) :
    ∃ met p', p.Grows p' ∧ one met p' = (.error stop, q) := by
  induction mets generalizing p with
  | nil => simp [rewriteEach] at h
  | cons met rest ih =>
    have hmet := hgrows met p
    rw [rewriteEach] at h
    cases hrun : one met p with
    | mk out p₁ =>
      rw [hrun] at h hmet
      cases out with
      | error stop' =>
        obtain ⟨rfl, rfl⟩ : stop' = stop ∧ p₁ = q := by simpa using h
        exact ⟨met, p, .refl p, hrun⟩
      | ok r =>
        dsimp only at h
        split at h
        · simp at h
        · cases hrest : rewriteEach one rest p₁ with
          | mk outs q' =>
            rw [hrest] at h
            cases outs with
            | ok rs => simp at h
            | error stop' =>
              obtain ⟨rfl, rfl⟩ : stop' = stop ∧ q' = q := by simpa using h
              obtain ⟨met', p', hp', hone⟩ := ih hrest
              exact ⟨met', p', hmet.trans hp', hone⟩

/-- What stops below a node stops in the rewrite of a child. -/
theorem rewriteBelow_error (hvisitor : visitor.Complies)
    {one : Facts N A β → Progress σ N A → Except Stop (Rewritten N A β) × Progress σ N A}
    {above : List (Facts N A β)} {control : Control} {entered : Draft N A β} {p q : Progress σ N A}
    {stop : Stop} (h : rewriteBelow .usual plan visitor one above control entered p =
      (.error stop, q)) : ∃ mets, rewriteEach one mets p = (.error stop, q) := by
  rw [rewriteBelow] at h
  generalize (if entered.here.deleted || control = .abort then .empty
    else plan.children entered.here.node : Children N) = children at h
  refine ⟨children.located.map fun x => .discover x.2 (some x.1) p.accumulate, ?_⟩
  generalize rewriteEach one _ p = results at h ⊢
  obtain ⟨_ | rs, p₂⟩ := results
  · simpa using h
  · dsimp only at h
    split at h
    · obtain ⟨r, q', hleft⟩ := rewriteLeft_complies hvisitor plan above entered children rs p₂
      rw [hleft] at h
      simp at h
    · simp at h

/-- **A rewrite that is cut off** has met a node on every level, if the visitor never fails. -/
theorem rewrite_error (hvisitor : visitor.Complies) (levels : Nat) {above : List (Facts N A β)}
    {met : Facts N A β} {p q : Progress σ N A} {stop : Stop}
    (h : rewrite .usual plan visitor levels above met p = (.error stop, q)) :
    p.visited.length + levels ≤ q.visited.length := by
  induction levels generalizing above met p q with
  | zero =>
    obtain rfl : p = q := congrArg Prod.snd h
    exact Nat.le_refl _
  | succ levels ih =>
    obtain ⟨control, d, p₁, henter, -⟩ := revise_complies hvisitor plan.rootVars .enter above none
      { here := met } p
    obtain ⟨own, -, hp₁⟩ := revise_ok henter
    have hmeet : (p₁.meet (identity met.first)).visited.length = p.visited.length + 1 := by
      rw [hp₁]
      rfl
    rw [rewrite, henter] at h
    cases control with
    | quit => simp at h
    | abort =>
      dsimp only at h
      rw [rewriteBelow_abort] at h
      simp at h
    | proceed =>
      obtain ⟨mets, heach⟩ := rewriteBelow_error hvisitor h
      obtain ⟨met', p', hp', hone⟩ := rewriteEach_error
        (rewrite_grows plan visitor levels (d.here :: above)) heach
      have hle := hp'.visited.length_le
      have hbelow := ih hone
      omega

end Traversal

end Arborist
