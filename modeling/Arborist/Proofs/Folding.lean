import Arborist.Proofs.FanoutVisits

/-!
# Bottom-up folds

A **fold** gives every node of a tree a value: from the node alone where it stops, and elsewhere
from the node and the values of its children, role by role. As a visitor it passes over the children
of a node where it stops, and it sets the accumulate of a node when it leaves it.

* `Fold.Evaluates` says what the values are. A finite tree has them (`Fold.exists_evaluates`).
* Both kinds of walks compute them (`traverse_fold`), though they keep the values of children in
  different places: a depth-first walk in the contexts of the children, through all of which one
  accumulate runs, and a fan-out walk in a flat list that is dealt out over the roles.
* An `Engine` is what the two have in common. The induction over the tree is made once, for any
  engine that folds one node right if it folds the nodes below it right (`Engine.comes_of_forest`).
-/

namespace Arborist

variable {σ N A κ : Type} {β : κ → Type}

/-! ### Values dealt out over roles -/

namespace Children

variable {M L : Type}

theorem map_map (f : N → M) (g : M → L) (c : Children N) :
    (c.map f).map g = c.map fun n => g (f n) := by
  simp [map, Function.comp_def]

theorem map_regroup (c : Children N) (items : List M) (f : M → L) :
    (c.regroup items).map f = c.regroup (items.map f) := by
  obtain ⟨groups⟩ := c
  simp only [regroup, map, mk.injEq]
  induction groups generalizing items with
  | nil => rfl
  | cons g groups ih =>
    rw [dealOut, dealOut, List.map_cons, ih, List.map_take, List.map_drop]

/-- The values of the children, dealt out again, are under the roles of the children. -/
theorem regroup_map_flatten (c : Children N) (f : N → M) :
    c.regroup (c.flatten.map f) = c.map f := by
  obtain ⟨groups⟩ := c
  simp only [regroup, map, flatten, mk.injEq]
  induction groups with
  | nil => rfl
  | cons g groups ih =>
    rw [List.flatMap_cons, List.map_append, dealOut, List.take_left' (by simp),
      List.drop_left' (by simp), ih, List.map_cons]

end Children

/-! ### Folds -/

/-- A **fold** over trees. -/
structure Fold (N A : Type) where
  /-- Whether the children of a node are passed over. -/
  stops : N → Bool
  /-- The value of a node whose children are passed over. -/
  atStop : N → A
  /-- The value of any other node, from the values of its children. -/
  combine : N → Children A → A

namespace Fold

/-- The value of a node, from what its children are worth. -/
def value (F : Fold N A) (node : N) (values : Children A) : A :=
  if F.stops node then F.atStop node else F.combine node values

/-- `v` gives nodes the **values** of a fold. -/
def Evaluates (F : Fold N A) (children : N → Children N) (nodes : List N) (v : N → A) : Prop :=
  ∀ n ∈ nodes, v n = F.value n ((children n).map v)

/-- The values of a fold that goes down at most the given number of levels. -/
def upTo (F : Fold N A) (children : N → Children N) : Nat → N → A
  | 0, node => F.atStop node
  | levels + 1, node => F.value node ((children node).map (F.upTo children levels))

/-- **Values exist** for the nodes of finite trees: from some number of levels on, going deeper
makes no difference. -/
theorem exists_evaluates (F : Fold N A) {adapter : Adapter σ N} {roots all : List N}
    (h : adapter.Forest roots all) : ∃ v, F.Evaluates adapter.children all v := by
  obtain ⟨enough, hstable⟩ : ∃ enough, ∀ levels, enough ≤ levels → ∀ n ∈ all,
      F.upTo adapter.children (levels + 1) n = F.upTo adapter.children levels n := by
    induction h with
    | nil => exact ⟨0, fun _ _ _ hn => absurd hn List.not_mem_nil⟩
    | @cons node rest below others down across ihDown ihAcross =>
      obtain ⟨deep, hdeep⟩ := ihDown
      obtain ⟨wide, hwide⟩ := ihAcross
      refine ⟨max (deep + 1) wide, fun levels hlevels n hn => ?_⟩
      rcases List.mem_cons.mp hn with rfl | hn
      · obtain ⟨levels, rfl⟩ : ∃ k, levels = k + 1 := ⟨levels - 1, by omega⟩
        have hbelow : (adapter.children n).map (F.upTo adapter.children (levels + 1)) =
            (adapter.children n).map (F.upTo adapter.children levels) := by
          simp only [Children.map, Children.mk.injEq]
          refine List.map_congr_left fun g hg => ?_
          refine congrArg (Prod.mk g.1) (List.map_congr_left fun child hchild => ?_)
          exact hdeep levels (by omega) child
            (down.sublist.subset (List.mem_flatMap.mpr ⟨g, hg, hchild⟩))
        rw [upTo, hbelow, ← upTo]
      · rcases List.mem_append.mp hn with hn | hn
        · exact hdeep levels (by omega) n hn
        · exact hwide levels (by omega) n hn
  refine ⟨F.upTo adapter.children enough, fun n hn => ?_⟩
  rw [← hstable enough (Nat.le_refl _) n hn, upTo]

/-! ### Folds as visitors -/

/-- What a fold looks at: the node and, while it is being left, the values of its children. -/
structure Look (N A : Type) where
  node : N
  values : Children A

/-- The **visitor** of a fold, whose one kind of request sets the accumulate. -/
def visitor (F : Fold N A) : Visitor σ (Look N A) A where
  enter := do
    let look ← Callback.view
    if F.stops look.node then do
      Callback.request (F.atStop look.node)
      pure .abort
    else
      pure .proceed
  leave := do
    let look ← Callback.view
    Callback.request (F.combine look.node look.values)
    pure .proceed

section Runs

variable {S : Type} {F : Fold N A} {view : S → Look N A} {perform : A → Attempt S Unit} {own : σ}
  {s s' : S}

/-- A callback goes on after a request that is granted. -/
theorem run_request_bind {a : A} {next : Unit → Callback σ (Look N A) A Control}
    (hset : (perform a).runWith s = (.ok (), s')) :
    Program.run view perform ((Callback.request a >>= next) own) s =
      Program.run view perform (next () own) s' := by
  change (fun out : Except Error Unit × S => Program.run view perform
    (Program.bind (.done (out.1, own)) _) out.2) ((perform a).runWith s) = _
  rw [hset]
  rfl

theorem run_enter_stop (hstop : F.stops (view s).node = true)
    (hset : (perform (F.atStop (view s).node)).runWith s = (.ok (), s')) :
    Program.run view perform (F.visitor.enter own) s = ((.ok .abort, own), s') := by
  have hlook : Program.run view perform (F.visitor.enter own) s = Program.run view perform
      ((if F.stops (view s).node then do
          Callback.request (F.atStop (view s).node)
          pure .abort
        else
          pure .proceed : Callback σ (Look N A) A Control) own) s := rfl
  rw [hlook, if_pos hstop, run_request_bind hset]
  rfl

theorem run_enter_proceed (hgo : F.stops (view s).node = false) :
    Program.run view perform (F.visitor.enter own) s = ((.ok .proceed, own), s) := by
  have hlook : Program.run view perform (F.visitor.enter own) s = Program.run view perform
      ((if F.stops (view s).node then do
          Callback.request (F.atStop (view s).node)
          pure .abort
        else
          pure .proceed : Callback σ (Look N A) A Control) own) s := rfl
  rw [hlook, if_neg (by rw [hgo]; decide)]
  rfl

theorem run_leave
    (hset : (perform (F.combine (view s).node (view s).values)).runWith s = (.ok (), s')) :
    Program.run view perform (F.visitor.leave own) s = ((.ok .proceed, own), s') := by
  have hlook : Program.run view perform (F.visitor.leave own) s = Program.run view perform
      ((do
        Callback.request (F.combine (view s).node (view s).values)
        pure .proceed : Callback σ (Look N A) A Control) own) s := rfl
  rw [hlook, run_request_bind hset]
  rfl

end Runs

variable [Identified N]

/-- What a fold looks at in a sequential walk: the accumulates that the contexts of the children
hand on. -/
def lookAtCursor (cursor : Cursor N A β) : Look N A where
  node := cursor.here.node
  values := (cursor.children?.map fun children => children.map Context.handedOn).getD .empty

/-- What a fold looks at in a fan-out walk: the accumulates that the children returned. -/
def lookAtBranch (b : Fanout.Branch N A β) : Look N A where
  node := b.node
  values := b.results.getD .empty

/-- What a fold looks at in the recursion that a sequential walk is. -/
def lookAtSight (sight : Sight N A β) : Look N A where
  node := sight.here.node
  values := (sight.below.map fun children => children.map Facts.handedOn).getD .empty

/-- The visitor of a sequential walk. -/
def sequential (F : Fold N A) : Traversal.SequentialVisitor σ N A β :=
  (F.visitor.asking .setAccumulate).comap lookAtCursor

/-- The visitor of a fan-out walk. -/
def fanout (F : Fold N A) : Fanout.FanoutVisitor σ N A β :=
  (F.visitor.asking .setAccumulate).comap lookAtBranch

/-- The visitor of the recursion. -/
def recursive (F : Fold N A) : Traversal.SightVisitor σ N A β :=
  (F.visitor.asking .setAccumulate).comap lookAtSight

theorem lookAtCursor_eq (cursor : Cursor N A β) :
    lookAtCursor cursor = lookAtSight cursor.sight := by
  rw [lookAtCursor, lookAtSight, Cursor.sight]
  congr 1
  cases cursor.children? with
  | none => rfl
  | some children => exact (Children.map_map Context.facts Facts.handedOn children).symm

theorem sequential_eq (F : Fold N A) :
    (F.sequential : Traversal.SequentialVisitor σ N A β) = F.recursive.comap Cursor.sight := by
  have hcomap : ∀ callback : Callback σ (Look N A) (Request N A β) Control,
      callback.comap (lookAtCursor : Cursor N A β → Look N A) =
        (callback.comap (lookAtSight : Sight N A β → Look N A)).comap Cursor.sight := by
    intro callback
    funext own
    rw [Callback.comap, Callback.comap, Callback.comap, Program.comap_comap,
      funext lookAtCursor_eq]
  rw [sequential, recursive, Visitor.comap, Visitor.comap, hcomap, hcomap, hcomap]
  rfl

end Fold

/-! ### One induction for both walks -/

/-- A way of **visiting** items, each of which stands for a node. It threads a state through, and
its results are worth something. -/
structure Engine (ε S ι α σ N A : Type) [Identified N] where
  /-- Visits an item, down to at most the given number of levels. -/
  visit : Nat → ι → ExceptT ε (StateM S) α
  node : ι → N
  /-- Whether nothing was done to the item yet. -/
  ready : ι → Prop
  value : α → A
  own : S → σ
  visited : S → List (Identity N)
  /-- Whether a result is what was done last. -/
  last : α → S → Prop

namespace Engine

variable {ε S ι α : Type} [Identified N] (E : Engine ε S ι α σ N A)

/-- Visiting an item **comes to** a value, keeps the own state, and visits some nodes only. -/
def ComesTo (levels : Nat) (item : ι) (s : S) (v : N → A) (nodes : List N) : Prop :=
  ∃ result s', E.visit levels item s = (.ok result, s') ∧ E.value result = v (E.node item) ∧
    E.last result s' ∧ E.own s' = E.own s ∧ E.visited s' ⊆ nodes.map identity ++ E.visited s

/-- Visiting items one after the other comes to their values. -/
def Comes (levels : Nat) (items : List ι) (s : S) (v : N → A) (nodes : List N) : Prop :=
  ∃ results s', items.mapM (E.visit levels) s = (.ok results, s') ∧
    results.map E.value = items.map (fun item => v (E.node item)) ∧ E.own s' = E.own s ∧
      E.visited s' ⊆ nodes.map identity ++ E.visited s

/-- An engine **folds** if it brings a free node to its value whenever it brings the children of the
node to theirs. -/
def Folds (F : Fold N A) (children : N → Children N) (v : N → A) : Prop :=
  ∀ ⦃levels : Nat⦄ ⦃item : ι⦄ ⦃s : S⦄ (below : List N), E.ready item →
    identity (E.node item) ∉ E.visited s →
    v (E.node item) = F.value (E.node item) ((children (E.node item)).map v) →
    (∀ items s', (∀ item ∈ items, E.ready item) →
      items.map E.node = (children (E.node item)).flatten →
      E.visited s' = identity (E.node item) :: E.visited s → E.Comes levels items s' v below) →
    E.ComesTo (levels + 1) item s v (E.node item :: below)

omit [Identified N] in
/-- What follows a success runs on the state it left. -/
theorem bind_of_ok {γ : Type} {x : ExceptT ε (StateM S) α} {s t : S} {a : α}
    (h : x s = (.ok a, t)) (f : α → ExceptT ε (StateM S) γ) : (x >>= f) s = f a t := by
  show ExceptT.bindCont f (x s).1 (x s).2 = f a t
  rw [h]
  rfl

variable {E} {F : Fold N A} {v : N → A}

/-- A free node comes to its value if the trees below it do, from any state in which they are
free. -/
theorem Folds.comesTo {children : N → Children N} (hfolds : E.Folds F children v) {levels : Nat}
    {item : ι} {s : S} {below : List N} (hready : E.ready item)
    (hv : v (E.node item) = F.value (E.node item) ((children (E.node item)).map v))
    (hfirst : identity (E.node item) ∉ below.map identity)
    (hfree : ∀ n ∈ E.node item :: below, identity n ∉ E.visited s)
    (hdown : ∀ items s', (∀ item ∈ items, E.ready item) →
      items.map E.node = (children (E.node item)).flatten →
      (∀ n ∈ below, identity n ∉ E.visited s') → E.Comes levels items s' v below) :
    E.ComesTo (levels + 1) item s v (E.node item :: below) := by
  rw [List.forall_mem_cons] at hfree
  refine hfolds below hready hfree.1 hv fun items s' hready' hnodes hvisited =>
    hdown items s' hready' hnodes fun n hn => ?_
  rw [hvisited, List.mem_cons, not_or]
  exact ⟨fun heq => hfirst (heq ▸ List.mem_map_of_mem hn), hfree.2 n hn⟩

/-- **Folding a forest**, by induction on it: if no identity occurs twice and none of its nodes was
visited before, the roots come to their values. -/
theorem comes_of_forest {adapter : Adapter σ N} (hfolds : E.Folds F adapter.children v)
    {roots all : List N} (h : adapter.Forest roots all) (hdistinct : (all.map identity).Nodup)
    (hv : F.Evaluates adapter.children all v) {levels : Nat} (hlevels : all.length ≤ levels)
    {items : List ι} (hready : ∀ item ∈ items, E.ready item) (hnodes : items.map E.node = roots)
    {s : S} (hfree : ∀ n ∈ all, identity n ∉ E.visited s) : E.Comes levels items s v all := by
  induction h generalizing levels items s with
  | nil =>
    obtain rfl := List.map_eq_nil_iff.mp hnodes
    exact ⟨[], s, rfl, rfl, rfl, by simp⟩
  | @cons node rest below others down across ihDown ihAcross =>
    obtain ⟨item, later, rfl, rfl, hlater⟩ := List.map_eq_cons_iff.mp hnodes
    rw [List.forall_mem_cons] at hready
    rw [List.map_cons, List.map_append, List.nodup_cons, List.nodup_append] at hdistinct
    obtain ⟨hfirst, hbelow, hothers, hapart⟩ := hdistinct
    rw [List.length_cons, List.length_append] at hlevels
    obtain ⟨levels, rfl⟩ : ∃ k, levels = k + 1 := ⟨levels - 1, by omega⟩
    -- the first tree
    obtain ⟨result, s₁, hrun, hvalue, -, hown, hvisited⟩ :
        E.ComesTo (levels + 1) item s v (E.node item :: below) :=
      hfolds.comesTo hready.1 (hv _ List.mem_cons_self)
        (fun hmem => hfirst (List.mem_append_left _ hmem))
        (fun n hn => hfree n ((List.sublist_append_left _ others).cons_cons _ |>.subset hn))
        fun items s' hready' hnodes' hfree' => ihDown hbelow
          (fun n hn => hv n (List.mem_cons_of_mem _ (List.mem_append_left _ hn))) (by omega) hready'
          hnodes' hfree'
    -- the other trees
    obtain ⟨results, s₂, hruns, hvalues, howns, hvisiteds⟩ :
        E.Comes (levels + 1) later s₁ v others := by
      refine ihAcross hothers (fun n hn => hv n ?_) (by omega) hready.2 hlater fun n hn hmem => ?_
      · exact List.mem_cons_of_mem _ (List.mem_append_right _ hn)
      · have hmem := hvisited hmem
        rw [List.map_cons, List.cons_append, List.mem_cons, List.mem_append] at hmem
        have hother := List.mem_map_of_mem (f := identity) hn
        rcases hmem with heq | hmem | hmem
        · exact hfirst (heq ▸ List.mem_append_right _ hother)
        · exact hapart _ hmem _ hother rfl
        · exact hfree n (List.mem_cons_of_mem _ (List.mem_append_right _ hn)) hmem
    refine ⟨result :: results, s₂, ?_, ?_, howns.trans hown, fun i hi => ?_⟩
    · rw [List.mapM_cons, bind_of_ok hrun, bind_of_ok hruns]
      rfl
    · rw [List.map_cons, List.map_cons, hvalue, hvalues]
    · rcases List.mem_append.mp (hvisiteds hi) with hi | hi
      · simp [hi]
      · rcases List.mem_append.mp (hvisited hi) with hi | hi
        · rcases List.mem_cons.mp hi with rfl | hi <;> simp_all
        · simp [hi]

/-- **Folding a tree.** -/
theorem comesTo_of_tree {adapter : Adapter σ N} (hfolds : E.Folds F adapter.children v)
    (item : ι) {all : List N} (h : adapter.Forest [E.node item] all)
    (hdistinct : (all.map identity).Nodup) (hv : F.Evaluates adapter.children all v) {levels : Nat}
    (hlevels : all.length ≤ levels) (hready : E.ready item) {s : S}
    (hfree : ∀ n ∈ all, identity n ∉ E.visited s) : E.ComesTo levels item s v all := by
  cases h with
  | @cons node rest below others down across =>
    cases across
    rw [List.append_nil] at *
    rw [List.map_cons, List.nodup_cons] at hdistinct
    obtain ⟨levels, rfl⟩ : ∃ k, levels = k + 1 := ⟨levels - 1, by simp at hlevels; omega⟩
    refine hfolds.comesTo hready (hv _ List.mem_cons_self) hdistinct.1 hfree
      fun items s' hready' hnodes hfree' => ?_
    exact comes_of_forest hfolds down hdistinct.2 (fun n hn => hv n (List.mem_cons_of_mem _ hn))
      (by simpa using hlevels) hready' hnodes hfree'

end Engine

/-! ### Depth-first walks -/

namespace Traversal

variable [Identified N] [DecidableEq κ] {F : Fold N A} {v : N → A}

section Sequential

variable {rootVars : Vars β} {above : List (Facts N A β)}
  {below : Option (Children (Facts N A β))} {met : Facts N A β} {course : Course σ N A}

/-- What a fold is run as in the recursion. -/
theorem runOn_fold (phase : Phase) (view : Desk N A β → Sight N A β) (crumbs : List (Crumb N))
    (own : σ) (d : Desk N A β) :
    ((F.recursive (N := N)).on phase).runOn view (Desk.perform crumbs) own d =
      Program.run (fun d => Fold.lookAtSight (view d))
        (fun a => Desk.perform crumbs (.setAccumulate a)) (F.visitor.on phase own) d := by
  cases phase <;>
    exact (Program.run_comap _ _ _ _ _).trans (Program.run_asking _ _ _ _ _)

theorem consult_fold {phase : Phase} {control : Control} {d : Desk N A β}
    (h : Program.run
      (fun d : Desk N A β => Fold.lookAtSight ⟨d.here, above, below, rootVars, course.visited⟩)
      (fun a => Desk.perform (Facts.crumbs met.location above) (.setAccumulate a))
      (F.visitor.on phase course.own)
      ⟨{ met with current := course.accumulate, next := none, phase := some phase },
        course.edits⟩ = ((.ok control, course.own), d)) :
    (consult rootVars F.recursive phase above below met).runWith course =
      (.ok (control, d.here), { course with accumulate := d.here.handedOn, edits := d.edits }) :=
  consult_of_ok ((runOn_fold _ _ _ _ _).trans h)

/-- Where a fold stops, the accumulate is set. -/
theorem consult_enter_stop (hstop : F.stops met.node = true) :
    (consult rootVars F.recursive .enter above none met).runWith course =
      (.ok (.abort, { met with
          current := course.accumulate, next := some (F.atStop met.node), phase := some .enter }),
        { course with accumulate := F.atStop met.node }) :=
  consult_fold (d := ⟨{ met with
    current := course.accumulate, next := some (F.atStop met.node), phase := some .enter },
    course.edits⟩) (Fold.run_enter_stop hstop rfl)

/-- Elsewhere nothing is done on entering a node. -/
theorem consult_enter_proceed (hgo : F.stops met.node = false) :
    (consult rootVars F.recursive .enter above none met).runWith course =
      (.ok (.proceed, { met with
          current := course.accumulate, next := none, phase := some .enter }), course) :=
  consult_fold (d := ⟨{ met with
    current := course.accumulate, next := none, phase := some .enter }, course.edits⟩)
    (Fold.run_enter_proceed hgo)

/-- On leaving a node, the accumulate is set to what the children give. -/
theorem consult_leave (children : Children (Facts N A β)) :
    (consult rootVars F.recursive .leave above (some children) met).runWith course =
      (.ok (.proceed, { met with
          current := course.accumulate
          next := some (F.combine met.node (children.map Facts.handedOn)), phase := some .leave }),
        { course with accumulate := F.combine met.node (children.map Facts.handedOn) }) :=
  consult_fold (d := ⟨{ met with
    current := course.accumulate
    next := some (F.combine met.node (children.map Facts.handedOn)), phase := some .leave },
    course.edits⟩) (Fold.run_leave rfl)

end Sequential

section Recursion

variable (plan : Plan N A β) (F : Fold N A)

/-- The recursion that a depth-first walk is. Its items are nodes that were just discovered, each
with what is above it. -/
def recursionEngine :
    Engine Stop (Course σ N A) (List (Facts N A β) × Facts N A β) (Facts N A β) σ N A where
  visit levels item := visit plan F.recursive levels item.1 item.2
  node item := item.2.node
  ready item := item.2.first = item.2.node ∧ item.2.deleted = false
  value := Facts.handedOn
  own := Course.own
  visited := Course.visited
  last here course := course.accumulate = here.handedOn

/-- **The recursion folds.** -/
theorem recursionEngine_folds (v : N → A) :
    (recursionEngine (σ := σ) plan F).Folds F plan.children v := by
  rintro levels ⟨above, met⟩ course below ⟨hfirst, hdeleted⟩ hfree hv hbelow
  change met.first = met.node at hfirst
  change met.deleted = false at hdeleted
  change identity met.node ∉ course.visited at hfree
  change v met.node = F.value met.node ((plan.children met.node).map v) at hv
  have hnew : course.visited.contains (identity met.first) = false := by
    rw [hfirst]
    simpa using hfree
  let entered := { course with visited := identity met.first :: course.visited }
  cases hstop : F.stops met.node with
  | true =>
    refine ⟨{ met with
        current := course.accumulate, next := some (F.atStop met.node), phase := some .enter },
      { entered with accumulate := F.atStop met.node }, ?_, ?_, rfl, rfl, ?_⟩
    · refine (runWith_visit_enter hnew).trans ?_
      rw [Descent.runWith_bind_ok (consult_enter_stop hstop), Descent.runWith_modify_bind]
      rfl
    · change F.atStop met.node = v met.node
      rw [hv, Fold.value, if_pos hstop]
    · change identity met.first :: course.visited ⊆
        (met.node :: below).map identity ++ course.visited
      rw [hfirst]
      exact List.cons_subset_cons _ (List.subset_append_right _ _)
  | false =>
    let here := { met with current := course.accumulate, next := none, phase := some .enter }
    let items := (plan.children met.node).located.map fun q =>
      (here :: above, (Facts.discover q.2 (some q.1) course.accumulate : Facts N A β))
    have hitems : items.map (recursionEngine (σ := σ) plan F).node =
        (plan.children met.node).flatten := by
      rw [← Children.map_located, List.map_map]
      rfl
    obtain ⟨results, course', hrun, hvalues, hown, hvisited⟩ := hbelow items entered
      (fun item hitem => by
        obtain ⟨q, -, rfl⟩ := List.mem_map.mp hitem
        exact ⟨rfl, rfl⟩)
      hitems (congrArg (fun n => identity n :: course.visited) hfirst)
    have hresults : ((plan.children met.node).regroup results).map Facts.handedOn =
        (plan.children met.node).map v := by
      rw [Children.map_regroup, ← Children.regroup_map_flatten, ← hitems, List.map_map]
      exact congrArg _ hvalues
    have hvisits : ((plan.children met.node).located.mapM fun q =>
        visit plan F.recursive levels (here :: above)
          (Facts.discover q.2 (some q.1) course.accumulate)).runWith entered =
        (.ok results, course') := by
      rw [← hrun, List.mapM_map]
      rfl
    let total := F.combine met.node ((plan.children met.node).map v)
    let done := { here with
      current := course'.accumulate, next := some total, phase := some .leave }
    have hleave : (consult plan.rootVars F.recursive .leave above
        (some ((plan.children met.node).regroup results)) here).runWith course' =
        (.ok (.proceed, done), { course' with accumulate := total }) := by
      rw [consult_leave, hresults]
    have hchildren : (if here.deleted then .empty else plan.children here.node) =
        plan.children met.node := if_neg (by rw [hdeleted]; decide)
    refine ⟨done, { course' with accumulate := total }, (runWith_visit_enter hnew).trans ?_, ?_,
      rfl, hown, fun i hi => ?_⟩
    · rw [Descent.runWith_bind_ok (consult_enter_proceed hstop), Descent.runWith_modify_bind,
        Descent.runWith_get_bind]
      dsimp only
      rw [hchildren, Descent.runWith_bind_ok hvisits, Descent.runWith_bind_ok hleave]
      rfl
    · change total = v met.node
      rw [hv, Fold.value, if_neg (by rw [hstop]; decide)]
    · rcases List.mem_append.mp (hvisited hi) with hi | hi
      · exact List.mem_append_left _ (List.mem_cons_of_mem _ hi)
      · change i ∈ identity met.first :: course.visited at hi
        rw [hfirst] at hi
        exact List.cons_subset_cons _ (List.subset_append_right _ _) hi

end Recursion

end Traversal

/-! ### Fan-out walks -/

namespace Fanout

variable [Identified N] [DecidableEq κ] {F : Fold N A}

section Callbacks

variable {b : Branch N A β} {shared : Shared σ N}

omit [DecidableEq κ] in
/-- What a fold is run as in a fan-out walk. -/
theorem runOn_fold (phase : Phase) (perform : Request A β → Attempt (Branch N A β) Unit) (own : σ)
    (b : Branch N A β) :
    ((F.fanout (N := N)).on phase).runOn (fun b => b) perform own b =
      Program.run Fold.lookAtBranch (fun a => perform (.setAccumulate a)) (F.visitor.on phase own)
        b := by
  cases phase <;>
    exact (Program.run_comap _ _ _ _ _).trans (Program.run_asking _ _ _ _ _)

theorem call_fold (phase : Phase) {control : Control} {b' : Branch N A β}
    (h : Program.run Fold.lookAtBranch (fun a => Branch.perform (.setAccumulate a))
      (F.visitor.on phase shared.own) b = ((.ok control, shared.own), b')) :
    (call b (F.fanout.on phase)).runWith shared = (.ok (control, b'), shared) :=
  call_of_ok ((runOn_fold phase _ _ b).trans h)

theorem call_enter_stop (hstop : F.stops b.node = true) :
    (call b F.fanout.enter).runWith shared =
      (.ok (.abort, { b with next := some (F.atStop b.node) }), shared) :=
  call_fold .enter (Fold.run_enter_stop hstop rfl)

theorem call_enter_proceed (hgo : F.stops b.node = false) :
    (call b F.fanout.enter).runWith shared = (.ok (.proceed, b), shared) :=
  call_fold .enter (Fold.run_enter_proceed hgo)

theorem call_leave {results : Children A} (hresults : b.results = some results) :
    (call b F.fanout.leave).runWith shared =
      (.ok (.proceed, { b with next := some (F.combine b.node results) }), shared) := by
  have hlook : (Fold.lookAtBranch b).values = results := congrArg (·.getD .empty) hresults
  rw [← hlook]
  exact call_fold .leave (Fold.run_leave rfl)

end Callbacks

variable (plan : Plan N A β) (F : Fold N A)

/-- What a fan-out walk visits: a node with its location, what it was handed, and what is above. -/
structure Branching (N A : Type) {κ : Type} (β : κ → Type) where
  frames : List (Frame N β)
  location : Option Location
  accumulate : A
  node : N

/-- A fan-out walk. -/
def engine : Engine Interrupt (Shared σ N) (Branching N A β) A σ N A where
  visit limit item :=
    visit plan F.fanout limit item.frames item.location item.accumulate item.node
  node := Branching.node
  ready _ := True
  value a := a
  own := Shared.own
  visited := Shared.visited
  last _ _ := True

/-- **A fan-out walk folds.** -/
theorem engine_folds (v : N → A) : (engine (σ := σ) plan F).Folds F plan.children v := by
  rintro limit ⟨frames, location, accumulate, node⟩ shared below - hfree hv hbelow
  change identity node ∉ shared.visited at hfree
  change v node = F.value node ((plan.children node).map v) at hv
  have hnew : shared.visited.contains (identity node) = false := by simpa using hfree
  let taken := { shared with visited := identity node :: shared.visited }
  let b : Branch N A β :=
    { node, location, frames, rootVars := plan.rootVars, current := accumulate
      visited := taken.visited }
  cases hstop : F.stops node with
  | true =>
    refine ⟨F.atStop node, taken, ?_, ?_, trivial, rfl, ?_⟩
    · refine (runWith_visit_free hnew).trans ?_
      rw [Walk.runWith_bind_ok (call_enter_stop hstop)]
      rfl
    · change F.atStop node = v node
      rw [hv, Fold.value, if_pos hstop]
    · exact List.cons_subset_cons _ (List.subset_append_right _ _)
  | false =>
    let items := (plan.children node).located.map fun q =>
      (⟨⟨node, location, b.vars⟩ :: frames, some q.1, b.handedOn, q.2⟩ : Branching N A β)
    have hitems : items.map Branching.node = (plan.children node).flatten := by
      rw [← Children.map_located, List.map_map]
      rfl
    obtain ⟨results, shared', hrun, hvalues, hown, hvisited⟩ :=
      hbelow items taken (fun _ _ => trivial) hitems rfl
    have hresults : (plan.children node).regroup results = (plan.children node).map v := by
      rw [← Children.regroup_map_flatten, ← hitems, List.map_map, ← results.map_id]
      exact congrArg _ hvalues
    have hvisits : ((plan.children node).located.mapM fun q =>
        visit plan F.fanout limit (⟨node, location, b.vars⟩ :: frames) (some q.1) b.handedOn
          q.2).runWith taken = (.ok results, shared') := by
      rw [← hrun, List.mapM_map]
      rfl
    let total := F.combine node ((plan.children node).map v)
    refine ⟨total, shared', (runWith_visit_free hnew).trans ?_, ?_, trivial, hown, ?_⟩
    · rw [Walk.runWith_bind_ok (call_enter_proceed hstop)]
      dsimp only
      rw [Walk.runWith_bind_ok hvisits, Walk.runWith_get_bind, hresults,
        Walk.runWith_bind_ok (call_leave rfl)]
      rfl
    · change total = v node
      rw [hv, Fold.value, if_neg (by rw [hstop]; decide)]
    · intro i hi
      rcases List.mem_append.mp (hvisited hi) with hi | hi
      · exact List.mem_append_left _ (List.mem_cons_of_mem _ hi)
      · exact List.cons_subset_cons _ (List.subset_append_right _ _) hi

end Fanout

/-! ### Both walks -/

section Walks

variable [Identified N] [DecidableEq κ] {F : Fold N A} {root : N} {all : List N} {v : N → A}

/-- What a fold comes to in the recursion that a depth-first walk is. -/
theorem Traversal.descend_fold {plan : Plan N A β} {adapter : Adapter σ N}
    (h : adapter.Forest [root] all) (hchildren : plan.children = adapter.children)
    (hdistinct : (all.map identity).Nodup) (hv : F.Evaluates adapter.children all v) (own : σ) :
    (descend plan F.recursive all.length [root]).runWith own = (.ok (v root), own) := by
  have hfolds := recursionEngine_folds (σ := σ) plan F v
  rw [hchildren] at hfolds
  obtain ⟨here, course, hrun, hvalue, hlast, hown, -⟩ :
      (recursionEngine plan F).ComesTo all.length ([], .discover root none plan.initial)
        { own, accumulate := plan.initial, edits := none } v all :=
    Engine.comesTo_of_tree hfolds ([], .discover root none plan.initial) h hdistinct hv
      (Nat.le_refl _) ⟨rfl, rfl⟩ fun _ _ => List.not_mem_nil
  have haccumulate : course.accumulate = v root := Eq.trans hlast hvalue
  have hkept : course.own = own := hown
  have hroots : (visitRoots plan F.recursive all.length [root]).runWith
      { own, accumulate := plan.initial, edits := none } = (.ok [here], course) := by
    rw [visitRoots, List.mapM_cons]
    exact (Descent.runWith_bind_ok hrun _).trans rfl
  rw [runWith_descend, hroots, conclude, haccumulate, hkept]

/-- What a fold comes to in a fan-out walk. -/
theorem Fanout.traverse_of_fold {plan : Plan N A β} {adapter : Adapter σ N}
    (h : adapter.Forest [root] all) (hchildren : plan.children = adapter.children)
    (hdistinct : (all.map identity).Nodup) (hv : F.Evaluates adapter.children all v) {levels : Nat}
    (hlevels : all.length ≤ levels) (own : σ) :
    (traverse plan F.fanout levels [root]).runWith own = (.ok [v root], own) := by
  have hfolds := engine_folds (σ := σ) plan F v
  rw [hchildren] at hfolds
  obtain ⟨a, shared, hrun, hvalue, -, hown, -⟩ :
      (engine plan F).ComesTo levels ⟨[], none, plan.initial, root⟩ { visited := [], own } v all :=
    Engine.comesTo_of_tree hfolds ⟨[], none, plan.initial, root⟩ h hdistinct hv hlevels trivial
      fun _ _ => List.not_mem_nil
  have hresult : a = v root := hvalue
  have hkept : shared.own = own := hown
  have hroots : ([root].mapM (visit plan F.fanout levels [] none plan.initial)).runWith
      { visited := [], own } = (.ok [a], shared) := by
    rw [List.mapM_cons]
    exact (Walk.runWith_bind_ok hrun _).trans rfl
  rw [Walk.runWith, traverse, hroots]
  exact congrArg₂ (fun a own => (Except.ok [a], own)) hresult hkept

/-- **Both kinds of walks fold.** On a finite tree in which no node occurs twice, a fold has values,
and both walks return that of the root, whatever the accumulates that they start from. -/
theorem Traversal.traverse_fold {adapter : Adapter σ N} (h : adapter.Forest [root] all)
    (hdistinct : (all.map identity).Nodup) (F : Fold N A) (initial initial' : A)
    (rootVars : Vars β) (own : σ) :
    (∃ v, F.Evaluates adapter.children all v) ∧
    ∀ v, F.Evaluates adapter.children all v → ∃ L, ∀ limit levels, L ≤ limit → L ≤ levels →
      (traverse { children := adapter.children, initial, rootVars } F.sequential limit
          [root]).runWith own = (.ok (v root), own) ∧
        (Fanout.traverse { children := adapter.children, initial := initial', rootVars } F.fanout
          levels [root]).runWith own = (.ok [v root], own) := by
  refine ⟨F.exists_evaluates h, fun v hv => ?_⟩
  let plan : Plan N A β := { children := adapter.children, initial, rootVars }
  have hdescend : (descend plan F.recursive all.length [root]).runWith own = (.ok (v root), own) :=
    descend_fold h rfl hdistinct hv own
  obtain ⟨L, hL⟩ : ∃ L, ∀ limit, L ≤ limit →
      (traverse plan (F.recursive.comap Cursor.sight) limit [root]).runWith own =
        (descend plan F.recursive all.length [root]).runWith own :=
    traverse_of_descend rfl F.recursive all.length [root] own (by rw [hdescend]; exact nofun)
  refine ⟨max L all.length, fun limit levels hlimit hlevels => ⟨?_, ?_⟩⟩
  · rw [F.sequential_eq, hL limit (by omega), hdescend]
  · exact Fanout.traverse_of_fold h rfl hdistinct hv (by omega) own

end Walks

/-! ### A tree -/

namespace Graph

/-- A tree with a role without children. -/
def grovesTable : Table where
  entries := [("r", ⟨[(.named "left", ["a"]), (.named "none", []), (.named "right", ["b", "c"])]⟩),
    ("a", ⟨[(.named "x", ["a1", "a2"])]⟩), ("b", ⟨[(.named "x", ["b1"])]⟩)]

/-- The fold that writes a node with the values of its children, and `b` in capitals alone. -/
def outline : Fold Node String where
  stops node := node.label = "b"
  atStop _ := "B"
  combine node values := node.label ++ Table.renderGroups values.groups

theorem groves_forest : (grovesTable.adapter : Adapter Nat Node).Forest [.listed "r"]
    [.listed "r", .listed "a", .listed "a1", .listed "a2", .listed "b", .listed "b1",
      .listed "c"] := by
  have hleaf : ∀ name, ((grovesTable.adapter : Adapter Nat Node).children (.listed name)).flatten =
      [] → (grovesTable.adapter : Adapter Nat Node).Forest [.listed name] [.listed name] :=
    fun _ hnone => .tree .nil hnone
  have ha : (grovesTable.adapter : Adapter Nat Node).Forest [.listed "a"] _ :=
    .tree ((hleaf "a1" rfl).append (hleaf "a2" rfl)) rfl
  have hb : (grovesTable.adapter : Adapter Nat Node).Forest [.listed "b"] _ :=
    .tree (hleaf "b1" rfl) rfl
  exact .tree (ha.append (hb.append (hleaf "c" rfl))) rfl

/-- Both walks write the tree. -/
theorem traverse_fold_groves : ∃ L, ∀ limit levels, L ≤ limit → L ≤ levels →
    (Traversal.traverse { children := grovesTable.children, initial := "?" }
        (outline.sequential : Traversal.SequentialVisitor Nat Node String fun _ : Unit => Nat)
        limit [.listed "r"]).runWith 0 =
          (.ok "r\x7bleft:a\x7bx:a1,a2\x7d;none:;right:B,c\x7d", 0) ∧
      (Fanout.traverse { children := grovesTable.children, initial := "!" }
        (outline.fanout : Fanout.FanoutVisitor Nat Node String fun _ : Unit => Nat)
        levels [.listed "r"]).runWith 0 =
          (.ok ["r\x7bleft:a\x7bx:a1,a2\x7d;none:;right:B,c\x7d"], 0) := by
  obtain ⟨-, hfold⟩ := Traversal.traverse_fold groves_forest (by decide) outline "?" "!"
    (.empty : Vars fun _ : Unit => Nat) 0
  have hv : outline.Evaluates grovesTable.children
      [.listed "r", .listed "a", .listed "a1", .listed "a2", .listed "b", .listed "b1",
        .listed "c"] (outline.upTo grovesTable.children 3) := by
    unfold Fold.Evaluates
    decide +kernel
  have hroot : outline.upTo grovesTable.children 3 (.listed "r") =
      "r\x7bleft:a\x7bx:a1,a2\x7d;none:;right:B,c\x7d" := by decide +kernel
  rw [← hroot]
  exact hfold _ hv

end Graph

end Arborist
