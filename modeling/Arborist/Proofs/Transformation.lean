import Arborist.Transform
import Arborist.Proofs.Forests

/-!
# A transformation is a rewrite

The main result on transformations: walking a tree, recording the edits and applying them together
gives what the recursive rewrite yields (`transform_eq_rewrite`), for visitors that comply with the
rules, edit only through requests that are recorded, and supply new nodes.

A node is left exactly if the callback that entered it said to go on as usual. So a deleted node is
left although nothing below it is visited, and a node whose children are passed over is not left
(`transform_leaving`).
-/

namespace Arborist

variable {σ N κ : Type} {β : κ → Type} [Identified N] [DecidableEq κ]

omit [Identified N] in
theorem Children.length_le_of_get? {c : Children N} {role : Role} {list : List N}
    (h : c.get? role = some list) : list.length ≤ c.flatten.length := by
  rw [flatten, List.flatMap_def]
  exact (List.sublist_flatten_of_mem (List.mem_map_of_mem (f := Prod.snd)
    (mem_groups_of_get? h))).length_le

namespace Traversal

/-- The walk of a transformation. -/
def editPlan (adapter : Adapter σ N) (rootVars : Vars β) : Plan N Unit β where
  children := adapter.children
  initial := ()
  rootVars

omit [Identified N] [DecidableEq κ] in
@[simp] theorem editPlan_children (adapter : Adapter σ N) (rootVars : Vars β) :
    (editPlan adapter rootVars).children = adapter.children := rfl

omit [Identified N] [DecidableEq κ] in
@[simp] theorem editPlan_mode (adapter : Adapter σ N) (rootVars : Vars β) :
    (editPlan adapter rootVars).mode = .depthFirst := rfl

/-- A rewrite is **orderly**: however far down it goes, the tree and the trees that were supplied
are finite and have at most `bound` nodes together, no identity occurs twice among these nodes, and
the adapter is lawful at them. Twice as many nodes still fit a signed machine word. -/
structure Orderly (leaving : Leaving) (adapter : Adapter σ N) (visitor : SightVisitor σ N Unit β)
    (rootVars : Vars β) (root : N) (own : σ) (bound : Nat) : Prop where
  forest : ∀ levels, ∃ all,
    adapter.Forest (root ::
      (rewriteRoot leaving (editPlan adapter rootVars) visitor levels root own).2.supplied) all ∧
    (all.map identity).Nodup ∧ all.length ≤ bound ∧ ∀ n ∈ all, adapter.LawfulAt n
  fits : 2 * bound < 9223372036854775808

variable {adapter : Adapter σ N} {visitor : SightVisitor σ N Unit β} {rootVars : Vars β} {root : N}
  {own : σ} {bound : Nat}

/-- What was met and supplied is known once for every time that it occurs in the forest, at most. -/
theorem roster_subperm {levels : Nat} {out : Except Stop (Rewritten N Unit β)}
    {p : Progress σ N Unit}
    (h : rewriteRoot .usual (editPlan adapter rootVars) visitor levels root own = (out, p))
    {all : List N} (hall : adapter.Forest (root :: p.supplied) all) :
    p.roster.Subperm (all.map identity) := by
  have hdraws := rewrite_draws visitor (editPlan_children adapter rootVars) levels [] root none ()
    { own, accumulate := () }
  rw [show rewrite .usual (editPlan adapter rootVars) visitor levels [] (.discover root none ())
    { own, accumulate := () } = (out, p) from h] at hdraws
  obtain ⟨met, supplied, hvisited, hsupplied, hcount⟩ := hdraws
  obtain rfl : p.visited = met := by simpa using hvisited
  obtain rfl : p.supplied = supplied := by simpa using hsupplied
  refine List.subperm_ext_iff.mpr fun i _ => ?_
  rw [Progress.roster, List.count_append]
  exact hcount all hall i

/-- **A rewrite ends** within as many levels as there are nodes, and one more. -/
theorem rewriteRoot_ok (hvisitor : visitor.Complies)
    (h : Orderly .usual adapter visitor rootVars root own bound) :
    ∃ r p, rewriteRoot .usual (editPlan adapter rootVars) visitor (bound + 1) root own =
      (.ok r, p) := by
  cases hrun : rewriteRoot .usual (editPlan adapter rootVars) visitor (bound + 1) root own with
  | mk out p =>
    cases out with
    | ok r => exact ⟨r, p, rfl⟩
    | error stop =>
      obtain ⟨all, hall, -, hlength, -⟩ := h.forest (bound + 1)
      rw [hrun] at hall
      have hmet := rewrite_error hvisitor (bound + 1) hrun
      have hroster := (roster_subperm hrun hall).length_le
      rw [Progress.roster, List.length_append, List.length_map, List.length_map] at hroster
      simp only [List.length_nil] at hmet
      omega

/-- What a transformation records, if it comes to what the rewrite comes to. -/
theorem walk_of_rewrite {levels : Nat} {r : Rewritten N Unit β} {p : Progress σ N Unit}
    {part : Part N} {here : Facts N Unit β}
    (hvisit : (visit (editPlan adapter rootVars) visitor levels [] (.discover root none ())).runWith
      (Progress.course { own, accumulate := () } []) =
        (if r.halted then .error .quit else .ok here, p.course part.edits)) :
    ∃ L s, s.ledger.edits = some part.edits ∧ ∀ limit, L ≤ limit →
      (walk (editPlan adapter rootVars) (visitor.comap Cursor.sight) true limit [root]).runWith
        own =
        (.ok s, p.own) := by
  obtain ⟨P, hfollows⟩ := start_follows (editPlan_mode adapter rootVars) visitor levels
    true [root] own
  have hroots : (visitRoots (editPlan adapter rootVars) visitor levels [root]).runWith
      { own, accumulate := (), edits := some [] } =
        (if r.halted then .error .quit else .ok [here], p.course part.edits) := by
    rw [visitRoots, List.mapM_cons]
    change (visit (editPlan adapter rootVars) visitor levels [] (.discover root none ()) >>=
      fun a => _).runWith (Progress.course { own, accumulate := () } []) = _
    cases hover : r.halted with
    | true =>
      rw [hover, if_pos rfl] at hvisit
      exact Descent.runWith_bind_error hvisit _
    | false =>
      rw [hover, if_neg (by decide)] at hvisit
      rw [Descent.runWith_bind_ok hvisit]
      rfl
  rw [if_pos rfl] at hfollows
  change Follows _ _ _ _ _ _ ((visitRoots (editPlan adapter rootVars) visitor levels [root]).runWith
    { own, accumulate := (), edits := some [] }) at hfollows
  rw [hroots] at hfollows
  obtain ⟨L, s, hmatch, hsteps⟩ := hfollows.ends (by cases r.halted <;> simp)
  exact ⟨L, s, hmatch.edits, hsteps⟩

/-- A transformation gives what an orderly rewrite that ends **yields**. -/
theorem transform_of_rewrite (hrequests : visitor.Requests Request.IsRecorded)
    (horderly : Orderly .usual adapter visitor rootVars root own bound) {r : Rewritten N Unit β}
    {p : Progress σ N Unit}
    (hrun : rewriteRoot .usual (editPlan adapter rootVars) visitor (bound + 1) root own =
      (.ok r, p))
    (hkept : r.deletedLeaving = false) :
    ∃ result own', List.Forall₂ (Sketch.Shows adapter) r.yield result.toList ∧
      ∃ L, ∀ limit, L ≤ limit →
        (transform adapter (visitor.comap Cursor.sight) rootVars limit root).runWith own =
          (.ok result, own') := by
  obtain ⟨all, hall, hnodup, hlength, hlawful⟩ := horderly.forest (bound + 1)
  rw [hrun] at hall
  have hroster := roster_subperm hrun hall
  have hdistinct : p.roster.Nodup := by
    obtain ⟨list, hperm, hsublist⟩ := hroster
    exact hperm.nodup_iff.mp (hsublist.nodup hnodup)
  have hinside : ∀ n ∈ root :: p.supplied, n ∈ all := fun n hn => hall.sublist.subset hn
  obtain ⟨part, hpart, hvisit⟩ := recordsVisit (editPlan_children adapter rootVars) hrequests
    (fun n (hn : n ∈ all) child hchild => (hall.closed hn).subset hchild)
    (fun n hn => (hlawful n hn).roles_nodup) (bound + 1) [] root none () { own, accumulate := () } p
    r [] hrun (hinside root List.mem_cons_self) (fun n hn => hinside n (List.mem_cons_of_mem _ hn))
    hdistinct ⟨List.nodup_nil, by simp⟩
  obtain ⟨L, s, hedits, hwalk⟩ := walk_of_rewrite hvisit
  -- every edit carries a node of its own from the forest
  have hcount : part.edits.length ≤ bound := by
    have hlogged := hpart.recorded.logged
    rw [List.nil_append] at hlogged
    have hsub : (part.edits.map fun z => identity z.node) ⊆ all.map identity := by
      intro i hi
      obtain ⟨z, hz, rfl⟩ := List.mem_map.mp hi
      exact hroster.subset (hlogged.known z hz)
    have hle := (List.subperm_of_subset hlogged.distinct hsub).length_le
    rw [List.length_map, List.length_map] at hle
    omega
  have hfits : ∀ s ∈ part.stations, ∀ role list, (adapter.children s.2).get? role = some list →
      list.length + part.edits.length < 9223372036854775808 := by
    intro s hs role list hlist
    have hchildren := (hall.closed (hpart.recorded.inside s hs)).length_le
    have hgroup := Children.length_le_of_get? hlist
    have hword := horderly.fits
    omega
  -- so the record is coherent, and applying it gives what the rewrite yields
  obtain ⟨result, own', htoRoot, hshows⟩ := hpart.records.toRoot hpart.recorded.distinct
    (fun s hs => hlawful _ (hpart.recorded.inside s hs)) hfits (hpart.alone rfl)
    (hpart.deleted rfl hkept) p.own
  refine ⟨result, own', hpart.yield ▸ hshows, L, fun limit hle => ?_⟩
  have hedits' : s.ledger.edits.getD [] = part.edits := by rw [hedits, Option.getD_some]
  rw [transform]
  change (walk (editPlan adapter rootVars) (visitor.comap Cursor.sight) true limit [root] >>=
    fun s => _).runWith own = _
  rw [Walk.runWith_bind_ok (hwalk limit hle), hedits', Walk.runWith_ofAttempt_ok htoRoot]

/-- **A transformation is the rewrite of the tree**: for every visitor that complies, edits only
through recorded requests, and supplies new nodes, the rewrite ends, and unless the root was deleted
while it was being left, the transformation succeeds with a tree that shows what the rewrite yields
in place of the root. -/
theorem transform_eq_rewrite (hvisitor : visitor.Complies)
    (hrequests : visitor.Requests Request.IsRecorded)
    (horderly : Orderly .usual adapter visitor rootVars root own bound) :
    ∃ r p, rewriteRoot .usual (editPlan adapter rootVars) visitor (bound + 1) root own =
        (.ok r, p) ∧
      (r.deletedLeaving = false → ∃ result own',
        List.Forall₂ (Sketch.Shows adapter) r.yield result.toList ∧ ∃ L, ∀ limit, L ≤ limit →
          (transform adapter (visitor.comap Cursor.sight) rootVars limit root).runWith own =
            (.ok result, own')) := by
  obtain ⟨r, p, hrun⟩ := rewriteRoot_ok hvisitor horderly
  exact ⟨r, p, hrun, transform_of_rewrite hrequests horderly hrun⟩

/-! ### Transformations on tables -/

section Tables

open Arborist.Graph

/-- What a visitor does at a node: the requests that it makes, whatever they are answered, and what
it says then. -/
structure Deed where
  requests : List (Request Node Unit (fun _ : Unit => Nat)) := []
  control : Control := .proceed

/-- Makes requests one after the other. -/
def Deed.ask (control : Control) (own : Nat) : List (Request Node Unit (fun _ : Unit => Nat)) →
    Program (Sight Node Unit (fun _ : Unit => Nat)) (Request Node Unit (fun _ : Unit => Nat))
      (Except Error Control × Nat)
  | [] => .done (.ok control, own)
  | q :: rest => .ask q fun _ => ask control own rest

/-- The visitor whose deeds go by the name of the node. -/
def byName (enter leave : String → Deed) : SightVisitor Nat Node Unit (fun _ : Unit => Nat) where
  enter := fun own => .look fun sight =>
    Deed.ask (enter sight.here.node.label).control own (enter sight.here.node.label).requests
  leave := fun own => .look fun sight =>
    Deed.ask (leave sight.here.node.label).control own (leave sight.here.node.label).requests

theorem Deed.ends_ask {P : Except Error Control × Nat → Prop} {control : Control} {own : Nat}
    (h : P (.ok control, own)) (requests : List (Request Node Unit (fun _ : Unit => Nat))) :
    (ask control own requests).Ends P := by
  induction requests with
  | nil => exact h
  | cons q rest ih => exact fun _ => ih

theorem Deed.requests_ask {P : Request Node Unit (fun _ : Unit => Nat) → Prop} (control : Control)
    (own : Nat) {requests : List (Request Node Unit (fun _ : Unit => Nat))}
    (h : ∀ q ∈ requests, P q) : (ask control own requests).Requests P := by
  induction requests with
  | nil => trivial
  | cons q rest ih =>
    exact ⟨h q List.mem_cons_self, fun _ => ih fun r hr => h r (List.mem_cons_of_mem _ hr)⟩

theorem byName_complies {enter leave : String → Deed}
    (hleave : ∀ name, (leave name).control ≠ .abort) : (byName enter leave).Complies := by
  intro phase own
  cases phase with
  | enter => exact fun sight => Deed.ends_ask ⟨_, rfl, fun _ => rfl⟩ _
  | leave => exact fun sight => Deed.ends_ask ⟨_, rfl, fun h => absurd h (hleave _)⟩ _
  | backRef => exact ⟨.proceed, rfl, nofun⟩

theorem byName_requests {P : Request Node Unit (fun _ : Unit => Nat) → Prop}
    {enter leave : String → Deed} (henter : ∀ name, ∀ q ∈ (enter name).requests, P q)
    (hleave : ∀ name, ∀ q ∈ (leave name).requests, P q) : (byName enter leave).Requests P := by
  intro phase own
  cases phase with
  | enter => exact fun sight => Deed.requests_ask _ _ (henter _)
  | leave => exact fun sight => Deed.requests_ask _ _ (hleave _)
  | backRef => trivial

/-- A tree with a node to put into it. -/
def gardenTable : Table where
  entries := [("root", ⟨[(.named "x", ["a", "b", "c"])]⟩), ("c", ⟨[(.named "x", ["d"])]⟩),
    ("w", ⟨[(.named "x", ["v"])]⟩)]

/-- On entering, a node is replaced, something is put in front of a child of the replacement, a node
is deleted and then in vain replaced, and a node whose parent will be replaced is deleted. -/
def gardenEnter : String → Deed
  | "a" => { requests := [.replace (.listed "w")] }
  | "v" => { requests := [.insertBefore (.listed "m")] }
  | "b" => { requests := [.remove, .replace (.listed "z")] }
  | "d" => { requests := [.remove] }
  | _ => {}

/-- On leaving, something is put behind the node that was deleted, and another node is replaced. -/
def gardenLeave : String → Deed
  | "b" => { requests := [.insertAfter (.listed "n")] }
  | "c" => { requests := [.replace (.listed "u")] }
  | _ => {}

/-- The visitor of the garden. -/
def gardenVisitor : SightVisitor Nat Node Unit (fun _ : Unit => Nat) :=
  byName gardenEnter gardenLeave

/-- A table of children that are all under different roles is **lawful**. -/
theorem Table.lawfulAt_of_mem {t : Table} {nodes : List Node}
    (hroles : ∀ n ∈ nodes, (t.children n).roles.Nodup) (haccepted : t.rejected = []) {n : Node}
    (hn : n ∈ nodes) : (t.adapter : Adapter Nat Node).LawfulAt n :=
  t.lawfulAt n (hroles n hn) (by simp [haccepted])

/-- A rewrite is orderly if whatever it supplies are the first of some new nodes. -/
theorem orderly_of_supplied {leaving : Leaving} {t : Table}
    {visitor : SightVisitor Nat Node Unit (fun _ : Unit => Nat)} {root : Node}
    {news all : List Node}
    (hall : (t.adapter : Adapter Nat Node).Forest (root :: news) all)
    (hnodup : (all.map identity).Nodup) (hroles : ∀ n ∈ all, (t.children n).roles.Nodup)
    (haccepted : t.rejected = []) (hfits : 2 * all.length < 9223372036854775808)
    (hnews : ∀ levels, (rewriteRoot leaving (editPlan (t.adapter : Adapter Nat Node) .empty) visitor
      levels root 0).2.supplied <+: news) :
    Orderly leaving (t.adapter : Adapter Nat Node) visitor .empty root 0 all.length where
  forest := by
    intro levels
    obtain ⟨rest, hrest⟩ := hnews levels
    rw [← hrest, ← List.cons_append] at hall
    obtain ⟨first, last, rfl, hfirst, -⟩ := hall.split
    refine ⟨first, hfirst, ?_, by simp, fun n hn => ?_⟩
    · rw [List.map_append] at hnodup
      exact hnodup.sublist (List.sublist_append_left _ _)
    · exact Table.lawfulAt_of_mem hroles haccepted (List.mem_append_left _ hn)
  fits := hfits

theorem leaf_forest {t : Table} (name : String) (h : (t.children (.listed name)).flatten = []) :
    (t.adapter : Adapter Nat Node).Forest [.listed name] [.listed name] :=
  .tree .nil h

/-- All nodes of the garden. -/
def gardenNodes : List Node :=
  ["root", "a", "b", "c", "d", "w", "v", "m", "n", "u"].map .listed

theorem garden_forest : (gardenTable.adapter : Adapter Nat Node).Forest
    (.listed "root" :: ["w", "m", "n", "u"].map .listed) gardenNodes := by
  have hc : (gardenTable.adapter : Adapter Nat Node).Forest [.listed "c"] _ :=
    .tree (leaf_forest "d" rfl) rfl
  have hroot : (gardenTable.adapter : Adapter Nat Node).Forest [.listed "root"] _ :=
    .tree ((leaf_forest "a" rfl).append ((leaf_forest "b" rfl).append hc)) rfl
  have hw : (gardenTable.adapter : Adapter Nat Node).Forest [.listed "w"] _ :=
    .tree (leaf_forest "v" rfl) rfl
  exact hroot.append (hw.append ((leaf_forest "m" rfl).append
    ((leaf_forest "n" rfl).append (leaf_forest "u" rfl))))

theorem garden_supplied (levels : Nat) :
    (rewriteRoot .usual (editPlan (gardenTable.adapter : Adapter Nat Node) .empty) gardenVisitor
      levels (.listed "root") 0).2.supplied <+: ["w", "m", "n", "u"].map .listed :=
  match levels with
  | 0 => ⟨_, rfl⟩
  | 1 => ⟨_, rfl⟩
  | 2 => ⟨_, rfl⟩
  | _ + 3 => ⟨[], rfl⟩

theorem garden_orderly : Orderly .usual (gardenTable.adapter : Adapter Nat Node)
    gardenVisitor .empty
    (.listed "root") 0 gardenNodes.length :=
  orderly_of_supplied garden_forest (by decide) (by decide) rfl (by decide) garden_supplied

theorem garden_complies : gardenVisitor.Complies :=
  byName_complies fun name => by
    unfold gardenLeave
    split <;> decide

theorem garden_recorded : gardenVisitor.Requests Request.IsRecorded :=
  byName_requests
    (fun name => by
      unfold gardenEnter
      split <;> simp [Request.IsRecorded])
    fun name => by
      unfold gardenLeave
      split <;> simp [Request.IsRecorded]

theorem transform_eq_rewrite_garden :
    gardenVisitor.Complies ∧ gardenVisitor.Requests Request.IsRecorded ∧
      Orderly .usual (gardenTable.adapter : Adapter Nat Node) gardenVisitor .empty
        (.listed "root") 0
        gardenNodes.length ∧
      ∃ r p, rewriteRoot .usual (editPlan (gardenTable.adapter : Adapter Nat Node) .empty)
          gardenVisitor (gardenNodes.length + 1) (.listed "root") 0 = (.ok r, p) ∧
        (r.deletedLeaving = false → ∃ result own',
          List.Forall₂ (Sketch.Shows (gardenTable.adapter : Adapter Nat Node)) r.yield
            result.toList ∧
          ∃ L, ∀ limit, L ≤ limit →
            (transform (gardenTable.adapter : Adapter Nat Node) (gardenVisitor.comap Cursor.sight)
              .empty limit (.listed "root")).runWith 0 = (.ok result, own')) :=
  ⟨garden_complies, garden_recorded, garden_orderly,
    transform_eq_rewrite garden_complies garden_recorded garden_orderly⟩

/-- Every node is left. -/
def Leaving.always : Leaving :=
  fun _ _ => true

/-- Only nodes that stay are left. -/
def Leaving.unlessDeleted : Leaving :=
  fun control deleted => control = .proceed && !deleted

/-- A tree with two nodes below the root. -/
def pairTable : Table where
  entries := [("root", ⟨[(.named "x", ["a", "b"])]⟩)]

/-- One node is deleted, and the children of the other one are passed over. -/
def pairEnter : String → Deed
  | "a" => { requests := [.remove] }
  | "b" => { control := .abort }
  | _ => {}

/-- Something is put in front of both nodes on leaving them. -/
def pairLeave : String → Deed
  | "a" => { requests := [.insertBefore (.listed "m")] }
  | "b" => { requests := [.insertBefore (.listed "n")] }
  | _ => {}

/-- The visitor of the two nodes. -/
def pairVisitor : SightVisitor Nat Node Unit (fun _ : Unit => Nat) :=
  byName pairEnter pairLeave

/-- All nodes of the tree, and those that are put into it. -/
def pairNodes : List Node :=
  ["root", "a", "b", "m", "n"].map .listed

theorem pair_forest : (pairTable.adapter : Adapter Nat Node).Forest
    (.listed "root" :: ["m", "n"].map .listed) pairNodes := by
  have hroot : (pairTable.adapter : Adapter Nat Node).Forest [.listed "root"] _ :=
    .tree ((leaf_forest "a" rfl).append (leaf_forest "b" rfl)) rfl
  exact hroot.append ((leaf_forest "m" rfl).append (leaf_forest "n" rfl))

theorem pair_orderly {leaving : Leaving} (hleaving : leaving ∈ [.usual, .always, .unlessDeleted]) :
    Orderly leaving (pairTable.adapter : Adapter Nat Node) pairVisitor .empty (.listed "root") 0
      pairNodes.length := by
  refine orderly_of_supplied pair_forest (by decide) (by decide) rfl (by decide) fun levels => ?_
  simp only [List.mem_cons, List.not_mem_nil, or_false] at hleaving
  rcases hleaving with rfl | rfl | rfl
  all_goals
    match levels with
    | 0 => exact ⟨_, rfl⟩
    | 1 => exact ⟨_, rfl⟩
    | _ + 2 => exact ⟨_, rfl⟩

theorem pair_complies : pairVisitor.Complies :=
  byName_complies fun name => by
    unfold pairLeave
    split <;> decide

theorem pair_recorded : pairVisitor.Requests Request.IsRecorded :=
  byName_requests
    (fun name => by
      unfold pairEnter
      split <;> simp [Request.IsRecorded])
    fun name => by
      unfold pairLeave
      split <;> simp [Request.IsRecorded]

omit [Identified N] in
/-- What was rebuilt shows from how many children. -/
theorem shape_eq_of_shows {adapter : Adapter σ N} {m n : N}
    {sketches sketches' : Children (Sketch N)}
    {nodes : List N} (h : List.Forall₂ (Sketch.Shows adapter) [.rebuild m sketches] nodes)
    (h' : List.Forall₂ (Sketch.Shows adapter) [.rebuild n sketches'] nodes) :
    sketches.shape = sketches'.shape := by
  cases h with
  | cons hnode _ =>
    cases h' with
    | cons hnode' _ =>
      cases hnode with
      | rebuild rebuilt shape _ =>
        cases hnode' with
        | rebuild rebuilt' shape' _ =>
          rw [shape, shape', ← rebuilt.2, ← rebuilt'.2]

/-- **Which nodes are left** shows in the result: a rewrite that leaves every node, or one that
leaves only the nodes that stay, yields something else than the transformation gives. -/
theorem transform_leaving :
    pairVisitor.Complies ∧ pairVisitor.Requests Request.IsRecorded ∧
      ∀ leaving ∈ [Leaving.always, .unlessDeleted],
        Orderly leaving (pairTable.adapter : Adapter Nat Node) pairVisitor .empty (.listed "root") 0
          pairNodes.length ∧
        ∃ r p, rewriteRoot leaving (editPlan (pairTable.adapter : Adapter Nat Node) .empty)
            pairVisitor (pairNodes.length + 1) (.listed "root") 0 = (.ok r, p) ∧
          r.deletedLeaving = false ∧
          ∃ result own',
            (∃ L, ∀ limit, L ≤ limit →
              (transform (pairTable.adapter : Adapter Nat Node) (pairVisitor.comap Cursor.sight)
                .empty limit (.listed "root")).runWith 0 = (.ok result, own')) ∧
            ¬List.Forall₂ (Sketch.Shows (pairTable.adapter : Adapter Nat Node)) r.yield
              result.toList := by
  refine ⟨pair_complies, pair_recorded, fun leaving hleaving =>
    ⟨pair_orderly (List.mem_cons_of_mem _ hleaving), ?_⟩⟩
  obtain ⟨result, own', hshows, hends⟩ := transform_of_rewrite pair_recorded
    (pair_orderly List.mem_cons_self) rfl rfl
  change List.Forall₂ _ [Sketch.rebuild (Node.listed "root") ⟨[(.named "x",
    [.keep (.listed "m"), .keep (.listed "b")])]⟩] _ at hshows
  simp only [List.mem_cons, List.not_mem_nil, or_false] at hleaving
  rcases hleaving with rfl | rfl
  · refine ⟨_, _, rfl, rfl, result, own', hends, fun hother => ?_⟩
    have hshape := shape_eq_of_shows hshows hother
    exact absurd hshape (by decide)
  · refine ⟨_, _, rfl, rfl, result, own', hends, fun hother => ?_⟩
    have hshape := shape_eq_of_shows hshows hother
    exact absurd hshape (by decide)

end Tables

end Traversal

end Arborist
