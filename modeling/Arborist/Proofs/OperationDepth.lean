import Arborist.Proofs.DepthVisits
import Mathlib

/-!
# The depth of an operation is that of its inlining

The walk of `Depth.ofOperation` ends within its limit (`weight_nodes`), so it is the recursion, and
its result is the depth of the operation **once all spreads are replaced**.

* `ofOperation_inlined`: there is a depth exactly when everything that the operation spreads is
  defined and does not spread itself, and it is the largest number of fields nested inside one
  another in the inlined operation. Otherwise the error says which it is.
-/

namespace Arborist.Analysis.Depth

open Query Traversal

/-! ### The length of the walk -/

section Weight

variable (fragments : Dict (Ref Fragment))

/-- A node weighs one more than it has children. -/
def weight (h : Handle) : Nat :=
  (children fragments h).flatten.length + 1

theorem weight_of_selections {h : Handle} (hspread : h.value.spread? = none) :
    weight fragments h = h.value.selections.items.length + 1 := by
  rw [weight, children, hspread]
  simp [selectionChildren, Children.flatten, selectionHandles, Block.handles, Block.refs]

theorem weight_of_spread (id : NodeId) (name : String) (ds : Block Directive) :
    weight fragments ⟨id, .selection (.spread name ds)⟩ ≤ 2 := by
  rw [weight, children]
  simp only [Element.spread?]
  split <;> simp [Children.flatten, Children.empty]

mutual

/-- A selection and what lies below it weigh less than three times their number. -/
theorem weight_selection (id : NodeId) : ∀ s : Selection,
    weight fragments ⟨id, .selection s⟩ + (s.inner.map (weight fragments)).sum + 1 ≤ 3 * s.size
  | .field f ⟨label, items⟩ => by
    have hitems := weight_innerList label 0 items
    rw [weight_of_selections fragments rfl, Selection.inner, Selection.size]
    simp only [Element.selections]
    omega
  | .spread name ds => by
    have hspread := weight_of_spread fragments id name ds
    rw [Selection.inner, Selection.size]
    simp only [List.map_nil, List.sum_nil]
    omega
  | .inline t ds ⟨label, items⟩ => by
    have hitems := weight_innerList label 0 items
    rw [weight_of_selections fragments rfl, Selection.inner, Selection.size]
    simp only [Element.selections]
    omega

theorem weight_innerList (label i : Nat) : ∀ items : List Selection,
    ((Selection.innerList label i items).map (weight fragments)).sum + items.length ≤
      3 * Selection.sizeList items
  | [] => Nat.le_refl _
  | s :: items => by
    have hs := weight_selection ⟨label, i⟩ s
    have hitems := weight_innerList label (i + 1) items
    rw [Selection.innerList, Selection.sizeList]
    simp only [List.map_cons, List.map_append, List.sum_cons, List.sum_append, List.length_cons]
    omega

end

/-- A definition and what lies below it weigh no more than three times their number. -/
theorem weight_definition {h : Handle} (hspread : h.value.spread? = none) :
    (h.within.map (weight fragments)).sum ≤
      3 * (1 + Selection.sizeList h.value.selections.items) := by
  have hitems := weight_innerList fragments h.value.selections.label 0 h.value.selections.items
  rw [Handle.within, List.map_cons, List.sum_cons, weight_of_selections fragments hspread,
    Element.inner]
  omega

theorem weight_fragments (list : List (String × Ref Fragment)) (n : Nat) :
    3 * n + (((list.map fun e => e.2.ofFragment).flatMap Handle.within).map
        (weight fragments)).sum ≤
      3 * list.foldl (fun n e => n + e.2.value.size) n := by
  induction list generalizing n with
  | nil => simp
  | cons e list ih =>
    have he : (e.2.ofFragment.within.map (weight fragments)).sum ≤ 3 * e.2.value.size :=
      weight_definition fragments rfl
    have hlist := ih (n + e.2.value.size)
    rw [List.map_cons, List.flatMap_cons, List.map_append, List.sum_append, List.foldl_cons]
    omega

end Weight

/-- **The limit of the walk** is as much as all nodes weigh, and one for the operation itself. -/
theorem weight_nodes (document : Document) (operation : Ref Operation) :
    1 + ((document.nodes operation).map (weight document.fragments)).sum ≤
      limit document.fragments operation.value := by
  have hoperation : (operation.ofOperation.within.map (weight document.fragments)).sum ≤
      3 * operation.value.size := weight_definition document.fragments rfl
  have hfragments := weight_fragments document.fragments document.fragments operation.value.size
  have hlimit : limit document.fragments operation.value = 3 * document.fragments.foldl
      (fun n e => n + e.2.value.size) operation.value.size + 1 := rfl
  rw [Document.nodes, List.flatMap_cons, List.map_append, List.sum_append, hlimit]
  omega

/-! ### Results -/

section Result

variable {document : Document} {operation : Ref Operation}

theorem nodes_closed (document : Document) (operation : Ref Operation) :
    ∀ n ∈ document.nodes operation, ∀ m ∈ (children document.fragments n).flatten,
      m ∈ document.nodes operation := by
  intro n hn m hm
  rw [children] at hm
  split at hm
  · split at hm
    · next f hf =>
      obtain rfl : m = f.ofFragment := by simpa [Children.flatten] using hm
      exact Document.fragment_mem_nodes operation hf
    · simp [Children.flatten, Children.empty] at hm
  · refine Document.selections_mem_nodes hn ?_
    simpa [selectionChildren, Children.flatten] using hm

theorem operation_mem_nodes (document : Document) (operation : Ref Operation) :
    operation.ofOperation ∈ document.nodes operation :=
  List.mem_flatMap.mpr ⟨_, List.mem_cons_self, List.mem_cons_self⟩

/-- The result of the walk is that of the recursion, which is not cut off. -/
theorem ofOperation_eq_descend (document : Document) (operation : Ref Operation) :
    let result := (descend (depthPlan document.fragments) (sightVisitor document.fragments)
      ((document.nodes operation).length + 1) [operation.ofOperation]).runWith []
    ofOperation document operation = result.1 ∧ result.1 ≠ .error .exhausted := by
  have hclosed := nodes_closed document operation
  have hroot : ∀ root ∈ [operation.ofOperation], root ∈ document.nodes operation := by
    intro root hroot
    rw [List.mem_singleton.mp hroot]
    exact operation_mem_nodes document operation
  have hnotes := sightVisitor_makesNotes document.fragments
  have hstays : (sightVisitor document.fragments).Requests
      (Request.StaysIn (· ∈ document.nodes operation)) :=
    fun phase memo => (hnotes phase memo).imp fun q hq => hq.staysIn _
  have hends : ((descend (depthPlan document.fragments) (sightVisitor document.fragments)
      ((document.nodes operation).length + 1) [operation.ofOperation]).runWith []).1 ≠
        .error .exhausted := by
    have hlength : (document.nodes operation).length =
        ((document.nodes operation).map identity).length := (List.length_map _).symm
    rw [hlength]
    exact descend_total hclosed (fun n hn => List.mem_map.mpr ⟨n, hn, rfl⟩) hstays hroot []
  refine ⟨?_, hends⟩
  obtain ⟨L, hL⟩ := traverse_of_descend rfl (sightVisitor document.fragments) _ _ [] hends
  have hcursor : (visitor document.fragments).Requests Request.MakesNotes := by
    rw [visitor_eq]
    exact hnotes.comap _
  have hweight : ∀ n ∈ document.nodes operation,
      (children document.fragments n).flatten.length < weight document.fragments n :=
    fun n _ => Nat.lt_succ_self _
  -- a larger limit makes no difference, and for a large one the walk is the recursion
  have hlimit : (traverse (depthPlan document.fragments) (visitor document.fragments)
      (max (limit document.fragments operation.value) L) [operation.ofOperation]).runWith [] =
        (traverse (depthPlan document.fragments) (visitor document.fragments)
          (limit document.fragments operation.value) [operation.ofOperation]).runWith [] :=
    traverse_of_le hclosed hweight hcursor hroot (weight_nodes document operation)
      (Nat.le_max_left _ _) []
  rw [← hL _ (Nat.le_max_right (limit document.fragments operation.value) L), ← visitor_eq, hlimit]
  rfl

/-- In an unshared document, different definitions have no nodes in common, and none has a node
twice. -/
theorem ids_of_unshared (h : document.Unshared operation) :
    let definitions := operation.ofOperation :: document.fragments.map fun e => e.2.ofFragment
    (∀ x ∈ definitions, (ids x).Nodup) ∧
      ∀ x ∈ definitions, ∀ y ∈ definitions, x ≠ y → ∀ i ∈ ids x, i ∉ ids y := by
  intro definitions
  have hnodup : (definitions.flatMap ids).Nodup := by
    rw [Document.Unshared, Document.nodes, List.map_flatMap] at h
    exact h
  obtain ⟨heach, hpairwise⟩ := List.nodup_flatMap.mp hnodup
  have : Std.Symm (Function.onFun List.Disjoint ids) :=
    ⟨fun _ _ hdisjoint _ hi hi' => hdisjoint hi' hi⟩
  refine ⟨heach, fun x hx y hy hne i hi hi' => ?_⟩
  exact hpairwise.forall hx hy hne hi hi'

theorem mem_definitions {name : String} {f : Ref Fragment}
    (hf : Dict.find? name document.fragments = some f) :
    f.ofFragment ∈ operation.ofOperation :: document.fragments.map fun e => e.2.ofFragment :=
  List.mem_cons_of_mem _ (List.mem_map.mpr ⟨(name, f), Dict.mem_of_find? hf, rfl⟩)

theorem distinct_of_unshared (h : document.Unshared operation) : Distinct document.fragments := by
  obtain ⟨hnodup, hapart⟩ := ids_of_unshared h
  have hname : ∀ {name f}, Dict.find? name document.fragments = some f → f.value.name = name :=
    fun hf => Document.name_of_fragment? (Document.find?_fragments document _ ▸ hf)
  refine ⟨hname, fun hf => hnodup _ (mem_definitions hf), ?_⟩
  intro name f other g i hf hg hi hi'
  by_contra hne
  refine hapart _ (mem_definitions hf) _ (mem_definitions hg) (fun heq => hne ?_) i hi hi'
  have hvalue : f.value = g.value := by simpa [Ref.ofFragment, Ref.map] using congrArg Ref.value heq
  rw [← hname hf, ← hname hg, hvalue]

/-- The nodes of an unshared operation are fresh when the walk begins. -/
theorem fresh_of_unshared (h : document.Unshared operation) :
    Fresh document.fragments [] (ids operation.ofOperation) := by
  obtain ⟨hnodup, hapart⟩ := ids_of_unshared h
  refine ⟨hnodup _ List.mem_cons_self, fun _ => List.not_mem_nil, fun {name f i} hf _ hi => ?_⟩
  exact hapart _ (mem_definitions hf) _ List.mem_cons_self
    (fun heq => nomatch congrArg Ref.value heq) i hi

/-- What the recursion comes to. -/
theorem descend_depth (h : document.Unshared operation) (levels : Nat) :
    match ((descend (depthPlan document.fragments) (sightVisitor document.fragments) levels
      [operation.ofOperation]).runWith []).1 with
    | .ok d =>
      HasDepth (Dict.find? · document.fragments) operation.value.selections.items d
    | .error (.failed e) => Fault document.fragments operation.value.selections.items e
    | .error .exhausted => True := by
  have hsound : Sound document.fragments [] { own := [], accumulate := 0, edits := none } :=
    ⟨fun hmemo => by simp [Dict.find?] at hmemo, fun _ hvisited => by simp at hvisited,
      fun _ _ _ => List.not_mem_nil⟩
  have hvisit : Outcome document.fragments [] [] (ids operation.ofOperation)
      operation.value.selections.items (fun _ course d => course.accumulate = d)
      ((visitRoots (depthPlan document.fragments) (sightVisitor document.fragments) levels
        [operation.ofOperation]).runWith { own := [], accumulate := 0, edits := none }) := by
    rw [visitRoots, List.mapM_cons]
    refine Outcome.bind ((rates (distinct_of_unshared h) levels).1 (fun f hf => by cases hf) hsound
      (fresh_of_unshared h) (fun _ _ hname => absurd hname List.not_mem_nil)) id ?_
    intro here course d hsound' hgrows hdepth hrated
    exact ⟨hsound', hgrows, d, hdepth, hrated.2 rfl⟩
  rw [runWith_descend]
  change Outcome _ _ _ _ _ _ (Descent.runWith _
    { own := [], accumulate := (depthPlan document.fragments).initial, edits := none }) at hvisit
  generalize (visitRoots (depthPlan document.fragments) (sightVisitor document.fragments) levels
    [operation.ofOperation]).runWith
      { own := [], accumulate := (depthPlan document.fragments).initial, edits := none } = result
    at hvisit ⊢
  obtain ⟨out, course⟩ := result
  cases out with
  | ok heres =>
    obtain ⟨-, -, d, hdepth, hd⟩ := hvisit
    change HasDepth _ _ course.accumulate
    rw [hd]
    exact hdepth
  | error stop =>
    cases stop with
    | quit => exact hvisit.elim
    | failed e => exact hvisit
    | exhausted => trivial

/-- An error says what is wrong only if something is. -/
theorem Fault.not_expandable {items : List Selection} {e : Error}
    (h : Fault document.fragments items e) :
    ¬ Expandable (Dict.find? · document.fragments) items := by
  intro hexpandable
  cases h with
  | unknown h hf =>
    obtain ⟨f, hf'⟩ := hexpandable.defined _ h
    simp [hf] at hf'
  | cycle h hf hself => exact hexpandable.acyclic _ _ h hf hself

/-- **The depth of an operation is that of its inlining.** In a document without shared nodes there is
a depth exactly when every fragment that the operation spreads is defined and does not spread itself.
Then the operation has one inlining, and the depth is the largest number of fields nested inside one
another there. Otherwise the error names a fragment that is spread and not defined, or one that is
spread and spreads itself. -/
theorem ofOperation_inlined (document : Document) (operation : Ref Operation)
    (h : document.Unshared operation) :
    ((∃ d, ofOperation document operation = .ok d) ↔
        Expandable document.fragment? operation.value.selections.items) ∧
      (∀ d, ofOperation document operation = .ok d → ∃ inlined,
        (∀ other, Inlines document.fragment? operation.value.selections.items other ↔
          other = inlined) ∧ IsGreatest {n | Nested inlined n} d) ∧
      (¬ Expandable document.fragment? operation.value.selections.items → ∃ e,
        ofOperation document operation = .error (.failed e) ∧ e.kind = .graphQL ∧ ∃ name,
          Spreads document.fragment? operation.value.selections.items name ∧
          (e = .unknownFragment name ∧ document.fragment? name = none ∨
            e = .fragmentCycle name ∧ ∃ f, document.fragment? name = some f ∧
              Spreads document.fragment? f.value.selections.items name)) := by
  have hlookup : (Dict.find? · document.fragments) = document.fragment? :=
    funext document.find?_fragments
  obtain ⟨hresult, hends⟩ := ofOperation_eq_descend document operation
  have hdepth := descend_depth h ((document.nodes operation).length + 1)
  rw [← hresult] at hdepth hends
  have hfault : ∀ {items e}, Fault document.fragments items e →
      ¬ Expandable document.fragment? items := fun hfault => hlookup ▸ hfault.not_expandable
  rw [hlookup] at hdepth
  cases hout : ofOperation document operation with
  | ok d =>
    rw [hout] at hdepth
    obtain ⟨inlined, hinlines, hgreatest⟩ := hdepth
    refine ⟨⟨fun _ => hinlines.expandable, fun _ => ⟨d, rfl⟩⟩, fun d' hd' => ?_, fun hnot => ?_⟩
    · obtain rfl := Except.ok.inj hd'
      exact ⟨inlined, fun other => ⟨fun hother => hother.unique hinlines, fun heq => heq ▸ hinlines⟩,
        hgreatest⟩
    · exact absurd hinlines.expandable hnot
  | error i =>
    rw [hout] at hdepth hends
    match i, hdepth, hends with
    | .exhausted, _, hends => exact absurd rfl hends
    | .failed e, hdepth, _ =>
      refine ⟨⟨fun ⟨d, hd⟩ => (nomatch hd), fun hexpandable => absurd hexpandable (hfault hdepth)⟩,
        nofun, fun _ => ⟨e, rfl, ?_⟩⟩
      cases hdepth with
      | unknown hname hf =>
        rw [hlookup] at hname
        rw [document.find?_fragments] at hf
        exact ⟨rfl, _, hname, .inl ⟨rfl, hf⟩⟩
      | cycle hname hf hself =>
        rw [hlookup] at hname hself
        rw [document.find?_fragments] at hf
        exact ⟨rfl, _, hname, .inr ⟨rfl, _, hf, hself⟩⟩

end Result

/-! ### A fragment in two places -/

/-- A field without arguments. -/
def sampleField (name : String) (label : Nat) (items : List Selection) : Selection :=
  .field { alias? := none, name, arguments := .empty, directives := .empty } ⟨label, items⟩

/-- A fragment of the name that the sample spreads. -/
def sampleFragment (label : Nat) (items : List Selection) : Definition :=
  .fragment { name := "F", typeCondition := "T", directives := .empty,
              selections := ⟨label, items⟩ }

/-- An operation that spreads a fragment below a field and beside it. -/
def sampleQuery : Operation where
  kind := .query
  name := none
  variableDefinitions := .empty
  directives := .empty
  selections := ⟨1, [sampleField "a" 2 [.spread "F" .empty], .spread "F" .empty]⟩

/-- A document that defines the fragment twice. -/
def sampleDocument : Document where
  definitions := ⟨0, [.operation sampleQuery, sampleFragment 3 [],
    sampleFragment 4 [sampleField "b" 5 [sampleField "c" 6 []]]]⟩

/-- The operation of the sample. -/
def sampleOperation : Ref Operation :=
  ⟨⟨0, 0⟩, sampleQuery⟩

theorem sample_unshared : sampleDocument.Unshared sampleOperation := by
  unfold Document.Unshared
  decide

theorem sample_fragment : ∃ f, sampleDocument.fragment? "F" = some f ∧
    f.value.selections.items = [sampleField "b" 5 [sampleField "c" 6 []]] :=
  ⟨_, rfl, rfl⟩

theorem sample_hasDepth :
    HasDepth sampleDocument.fragment? sampleQuery.selections.items 3 := by
  obtain ⟨f, hf, hitems⟩ := sample_fragment
  have hfragment : HasDepth sampleDocument.fragment? f.value.selections.items 2 :=
    hitems ▸ HasDepth.field (HasDepth.field HasDepth.nil)
  have hspread : HasDepth sampleDocument.fragment? [.spread "F" .empty] 2 := hfragment.spread hf
  have hfield : HasDepth sampleDocument.fragment? [sampleField "a" 2 [.spread "F" .empty]] 3 :=
    HasDepth.field (b := ⟨2, [.spread "F" .empty]⟩) hspread
  exact hfield.append hspread

theorem ofOperation_inlined_sample : sampleDocument.Unshared sampleOperation ∧
    ofOperation sampleDocument sampleOperation = .ok 3 := by
  refine ⟨sample_unshared, ?_⟩
  obtain ⟨inlined, hinlines, hgreatest⟩ := sample_hasDepth
  obtain ⟨hiff, hdepth, -⟩ := ofOperation_inlined sampleDocument sampleOperation sample_unshared
  obtain ⟨d, hd⟩ := hiff.mpr hinlines.expandable
  obtain ⟨inlined', hinlines', hgreatest'⟩ := hdepth d hd
  obtain rfl := (hinlines' inlined).mp hinlines
  rw [hd, hgreatest'.unique hgreatest]

end Arborist.Analysis.Depth
