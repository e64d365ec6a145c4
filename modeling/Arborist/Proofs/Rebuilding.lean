import Arborist.Query.Node
import Arborist.Proofs.Equality
import Arborist.Proofs.Splicing
import Mathlib

/-!
# Rebuilding query nodes

The adapter of query nodes obeys the laws of a **lens**: a node is its data and its lists of
children, and rebuilding it exchanges lists and nothing else.

* `Kind.roles` and `Kind.role?` are the two tables behind the adapter: which roles a kind of node
  has, and which role nodes of a kind stand in.
* `Attempt.Decides` says of an attempt when it succeeds, and that it fails with an error of the
  adapter otherwise. `Element.place_decides` is the one lemma about the kinds of nodes; each of
  their roles is a case of `placed_decides`. Several roles are an induction (`placeAll_decides`).
* `Element.erase_eq_of_listed`: a node reads as its data and its children do. The laws for
  rebuilding a node from its own children and for rebuilding it twice follow from that.
-/

namespace Arborist

theorem Children.get?_eq_none_iff {N : Type} {c : Children N} {role : Role} :
    c.get? role = none ↔ role ∉ c.roles := by
  obtain ⟨groups⟩ := c
  simp only [get?, roles]
  induction groups with
  | nil => simp [lookup]
  | cons g groups ih =>
    obtain ⟨r, list⟩ := g
    rw [lookup, List.map_cons, List.mem_cons, not_or, ← ih]
    split
    · next h => simp [h]
    · next h => simp [Ne.symm h]

/-! ### Attempts that decide -/

/-- An attempt **decides** whether `p` holds: if so it succeeds with a result as promised, and if
not it fails with an error of the adapter. -/
def Attempt.Decides {σ α : Type} (x : Attempt σ α) (p : Prop) (promised : α → Prop) : Prop :=
  ∀ s, (p ∧ ∃ a t, x.runWith s = (.ok a, t) ∧ promised a) ∨
    (¬ p ∧ ∃ e t, x.runWith s = (.error e, t) ∧ e.kind = .adapter)

namespace Attempt.Decides

variable {σ α γ : Type} {x : Attempt σ α} {p q : Prop} {promised : α → Prop} {s : σ}

theorem pure {a : α} (h : promised a) : Decides (pure a : Attempt σ α) True promised :=
  fun s => .inl ⟨trivial, a, s, rfl, h⟩

theorem throw {e : Error} (hp : ¬ p) (he : e.kind = .adapter) :
    Decides (throw e : Attempt σ α) p promised :=
  fun s => .inr ⟨hp, e, s, rfl, he⟩

theorem congr (h : x.Decides p promised) (hpq : p ↔ q) : x.Decides q promised :=
  propext hpq ▸ h

theorem ite {c : Prop} [Decidable c] {y : Attempt σ α} (hx : c → x.Decides p promised)
    (hy : ¬ c → y.Decides p promised) : (if c then x else y).Decides p promised := by
  split
  · next hc => exact hx hc
  · next hc => exact hy hc

/-- Two decisions in a row; the second may rely on what the first promises. -/
theorem bind (h : x.Decides p promised) {f : α → Attempt σ γ} {promised' : γ → Prop}
    (hf : ∀ a, promised a → (f a).Decides q promised') :
    (x >>= f).Decides (p ∧ q) promised' := by
  intro s
  rcases h s with ⟨hp, a, t, hrun, ha⟩ | ⟨hp, e, t, hrun, he⟩
  · rw [runWith_bind_ok hrun]
    exact (hf a ha t).imp (fun ⟨hq, h⟩ => ⟨⟨hp, hq⟩, h⟩) fun ⟨hq, h⟩ => ⟨fun hpq => hq hpq.2, h⟩
  · rw [runWith_bind_error hrun]
    exact .inr ⟨fun hpq => hp hpq.1, e, t, rfl, he⟩

theorem imp {promised' : α → Prop} (h : x.Decides p promised)
    (himp : ∀ a, promised a → promised' a) : x.Decides p promised' := by
  intro s
  rcases h s with ⟨hp, a, t, hrun, ha⟩ | hfails
  · exact .inl ⟨hp, a, t, hrun, himp a ha⟩
  · exact .inr hfails

theorem succeeds (h : x.Decides p promised) (hp : p) (s : σ) :
    ∃ a t, x.runWith s = (.ok a, t) ∧ promised a :=
  (h s).elim And.right fun hfails => absurd hp hfails.1

theorem fails (h : x.Decides p promised) (hp : ¬ p) (s : σ) :
    ∃ e t, x.runWith s = (.error e, t) ∧ e.kind = .adapter :=
  (h s).elim (fun hok => absurd hok.1 hp) And.right

/-- A success shows that `p` holds and is as promised. -/
theorem of_ok (h : x.Decides p promised) {a : α} {t : σ} (hrun : x.runWith s = (.ok a, t)) :
    p ∧ promised a := by
  rcases h s with ⟨hp, b, u, hb, hpromised⟩ | ⟨-, e, u, he, -⟩
  · obtain ⟨hab, -⟩ := Prod.mk.inj (hrun.symm.trans hb)
    obtain rfl := Except.ok.inj hab
    exact ⟨hp, hpromised⟩
  · cases hrun.symm.trans he

end Attempt.Decides

namespace Query

/-! ### Kinds and roles -/

/-- The roles that nodes of a kind have, in order. -/
def Kind.roles : Kind → List Role
  | .document => [.definitions]
  | .operation => [.variableDefinitions, .directives, .selections]
  | .fragment => [.directives, .selections]
  | .variableDefinition => [.directives]
  | .field => [.arguments, .directives, .selections]
  | .spread => [.directives]
  | .inline => [.directives, .selections]
  | .directive => [.arguments]
  | .argument => []

/-- The role that nodes of a kind stand in. A document stands nowhere. -/
def Kind.role? : Kind → Option Role
  | .document => none
  | .operation => some .definitions
  | .fragment => some .definitions
  | .variableDefinition => some .variableDefinitions
  | .field => some .selections
  | .spread => some .selections
  | .inline => some .selections
  | .directive => some .directives
  | .argument => some .arguments

/-- Children that **fit** a kind of node: it has their roles, and they stand in these roles. -/
def Kind.Fits (kind : Kind) (groups : List (Role × List Handle)) : Prop :=
  ∀ g ∈ groups, g.1 ∈ kind.roles ∧ ∀ child ∈ g.2, child.value.kind.role? = some g.1

theorem Kind.fits_cons (kind : Kind) (g : Role × List Handle) (groups : List (Role × List Handle)) :
    kind.Fits (g :: groups) ↔
      (g.1 ∈ kind.roles ∧ ∀ child ∈ g.2, child.value.kind.role? = some g.1) ∧ kind.Fits groups :=
  List.forall_mem_cons

/-- A node without its children. -/
def Element.bare : Element → Element
  | .document _ => .document ⟨.empty⟩
  | .definition (.operation o) => .definition (.operation
      { o with variableDefinitions := .empty, directives := .empty, selections := .empty })
  | .definition (.fragment f) => .definition (.fragment
      { f with directives := .empty, selections := .empty })
  | .variableDefinition v => .variableDefinition { v with directives := .empty }
  | .selection (.field f _) => .selection (.field
      { f with arguments := .empty, directives := .empty } .empty)
  | .selection (.spread name _) => .selection (.spread name .empty)
  | .selection (.inline typeCondition _ _) => .selection (.inline typeCondition .empty .empty)
  | .directive d => .directive { d with arguments := .empty }
  | .argument a => .argument a

/-- What the children of a node under a role say, from left to right. -/
def Element.listed (e : Element) (role : Role) : Option (List Element) :=
  (e.children.get? role).map (List.map Ref.value)

@[simp] theorem Element.kind_bare (e : Element) : e.bare.kind = e.kind := by
  fun_cases Element.bare e <;> rfl

theorem Element.kind_eq_of_bare {e e' : Element} (h : e'.bare = e.bare) : e'.kind = e.kind := by
  rw [← kind_bare e', h, kind_bare]

/-- An argument is all data. -/
theorem Element.eq_argument_of_bare {e : Element} {a : Argument}
    (h : e.bare = (Element.argument a).bare) : e = .argument a := by
  cases e with
  | argument b => exact h
  | definition d => cases d <;> cases h
  | selection x => cases x <;> cases h
  | _ => cases h

/-- Every role of the kind is there, even if its list is empty. -/
theorem Element.roles_children (e : Element) : e.children.roles = e.kind.roles := by
  fun_cases Element.children e <;> rfl

theorem Kind.nodup_roles (kind : Kind) : kind.roles.Nodup := by
  cases kind <;> decide

/-! ### One role -/

/-- A conversion takes exactly the nodes that stand in a role, and refuses all others. -/
def Converts {α : Type} (role : Role) (convert : Element → Except Error α) (element : α → Element) :
    Prop :=
  ∀ e, (e.kind.role? = some role ∧ ∃ a, convert e = .ok a ∧ element a = e) ∨
    (e.kind.role? ≠ some role ∧ ∃ error, convert e = .error error ∧ error.kind = .adapter)

theorem converts_definition : Converts .definitions Element.asDefinition .definition := by
  intro e
  match e with
  | .definition (.operation _) | .definition (.fragment _) => exact .inl ⟨rfl, _, rfl, rfl⟩
  | .document _ | .variableDefinition _ | .selection (.field ..) | .selection (.spread ..)
  | .selection (.inline ..) | .directive _ | .argument _ =>
    exact .inr ⟨of_decide_eq_false rfl, _, rfl, rfl⟩

theorem converts_variable :
    Converts .variableDefinitions Element.asVariable .variableDefinition := by
  intro e
  match e with
  | .variableDefinition _ => exact .inl ⟨rfl, _, rfl, rfl⟩
  | .document _ | .definition (.operation _) | .definition (.fragment _) | .selection (.field ..)
  | .selection (.spread ..) | .selection (.inline ..) | .directive _ | .argument _ =>
    exact .inr ⟨of_decide_eq_false rfl, _, rfl, rfl⟩

theorem converts_selection : Converts .selections Element.asSelection .selection := by
  intro e
  match e with
  | .selection (.field ..) | .selection (.spread ..) | .selection (.inline ..) =>
    exact .inl ⟨rfl, _, rfl, rfl⟩
  | .document _ | .definition (.operation _) | .definition (.fragment _)
  | .variableDefinition _ | .directive _ | .argument _ =>
    exact .inr ⟨of_decide_eq_false rfl, _, rfl, rfl⟩

theorem converts_directive : Converts .directives Element.asDirective .directive := by
  intro e
  match e with
  | .directive _ => exact .inl ⟨rfl, _, rfl, rfl⟩
  | .document _ | .definition (.operation _) | .definition (.fragment _)
  | .variableDefinition _ | .selection (.field ..) | .selection (.spread ..)
  | .selection (.inline ..) | .argument _ =>
    exact .inr ⟨of_decide_eq_false rfl, _, rfl, rfl⟩

theorem converts_argument : Converts .arguments Element.asArgument .argument := by
  intro e
  match e with
  | .argument _ => exact .inl ⟨rfl, _, rfl, rfl⟩
  | .document _ | .definition (.operation _) | .definition (.fragment _)
  | .variableDefinition _ | .selection (.field ..) | .selection (.spread ..)
  | .selection (.inline ..) | .directive _ =>
    exact .inr ⟨of_decide_eq_false rfl, _, rfl, rfl⟩

/-- What placing a list under a role makes of a node: the list of that role is exchanged. -/
structure Placed (e : Element) (role : Role) (list : List Handle) (e' : Element) : Prop where
  bare : e'.bare = e.bare
  children : ∃ handles, handles.map Ref.value = list.map Ref.value ∧
    e'.children = e.children.insert role handles

section Placing

variable {σ α : Type} [Supply σ] {role : Role} {convert : Element → Except Error α}
  {element : α → Element}

theorem Block.map_value_handles (b : Block α) (element : α → Element) :
    (b.handles element).map Ref.value = b.items.map element := by
  rw [Block.handles, List.map_map, ← b.map_value_refs, List.map_map]
  rfl

/-- Nodes are converted one after the other, until one is out of place. -/
theorem Converts.mapM (h : Converts role convert element) (list : List Handle) :
    ((∀ child ∈ list, child.value.kind.role? = some role) ∧
      ∃ items, list.mapM (fun child => convert child.value) = .ok items ∧
        items.map element = list.map Ref.value) ∨
    ((¬ ∀ child ∈ list, child.value.kind.role? = some role) ∧
      ∃ error, list.mapM (fun child => convert child.value) = .error error ∧
        error.kind = .adapter) := by
  induction list with
  | nil => exact .inl ⟨nofun, [], rfl, rfl⟩
  | cons child list ih =>
    rw [List.mapM_cons, List.forall_mem_cons]
    rcases h child.value with ⟨hrole, a, ha, hvalue⟩ | ⟨hrole, error, herror, hkind⟩
    · rw [ha]
      rcases ih with ⟨hroles, items, hitems, hvalues⟩ | ⟨hroles, error, herror, hkind⟩
      · rw [hitems]
        refine .inl ⟨⟨hrole, hroles⟩, a :: items, rfl, ?_⟩
        rw [List.map_cons, List.map_cons, hvalue, hvalues]
      · rw [herror]
        exact .inr ⟨fun hall => hroles hall.2, error, rfl, hkind⟩
    · rw [herror]
      exact .inr ⟨fun hall => hrole hall.1, error, rfl, hkind⟩

theorem Converts.copyBlock (h : Converts role convert element) (list : List Handle) :
    (copyBlock convert list : Attempt σ (Block α)).Decides
      (∀ child ∈ list, child.value.kind.role? = some role)
      fun b => (b.handles element).map Ref.value = list.map Ref.value := by
  intro s
  rw [Query.copyBlock]
  rcases h.mapM list with ⟨hroles, items, hitems, hvalues⟩ | ⟨hroles, error, herror, hkind⟩
  · rw [hitems]
    exact .inl ⟨hroles, ⟨_, items⟩, _, rfl, (Block.map_value_handles _ _).trans hvalues⟩
  · rw [herror]
    exact .inr ⟨hroles, error, s, rfl, hkind⟩

/-- One role of a kind of nodes: copies are made, and `exchange` puts them in the place of the list
that was there. -/
theorem placed_decides {slot : Role} (h : Converts slot convert element) {e : Element}
    (list : List Handle) (hslot : slot ∈ e.kind.roles) {exchange : Block α → Element}
    (hexchange : ∀ b, (exchange b).bare = e.bare ∧
      (exchange b).children = e.children.insert slot (b.handles element)) (hrole : role = slot) :
    (do pure (exchange (← copyBlock convert list)) : Attempt σ Element).Decides
      (role ∈ e.kind.roles ∧ ∀ child ∈ list, child.value.kind.role? = some role)
      (Placed e role list) := by
  subst hrole
  refine ((h.copyBlock list).bind fun b hb => .pure ?_).congr
    ⟨fun ⟨hroles, _⟩ => ⟨hslot, hroles⟩, fun ⟨_, hroles⟩ => ⟨hroles, trivial⟩⟩
  obtain ⟨hbare, hchildren⟩ := hexchange b
  exact ⟨hbare, _, hb, hchildren⟩

/-- **One role**: the list is exchanged if the node has the role and all nodes of the list may stand
in it, and refused otherwise. -/
theorem Element.place_decides (e : Element) (role : Role) (list : List Handle) :
    (e.place role list : Attempt σ Element).Decides
      (role ∈ e.kind.roles ∧ ∀ child ∈ list, child.value.kind.role? = some role)
      (Placed e role list) := by
  match e with
  | .document _ =>
    refine .ite (placed_decides converts_definition list (by simp [kind, Kind.roles])
      fun _ => ⟨rfl, rfl⟩) fun h => ?_
    exact .throw (by simp [kind, Kind.roles, h]) rfl
  | .definition (.operation _) =>
    refine .ite (placed_decides converts_variable list (by simp [kind, Kind.roles])
      fun _ => ⟨rfl, rfl⟩) fun h => ?_
    refine .ite (placed_decides converts_directive list (by simp [kind, Kind.roles])
      fun _ => ⟨rfl, rfl⟩) fun h' => ?_
    refine .ite (placed_decides converts_selection list (by simp [kind, Kind.roles])
      fun _ => ⟨rfl, rfl⟩) fun h'' => ?_
    exact .throw (by simp [kind, Kind.roles, h, h', h'']) rfl
  | .definition (.fragment _) =>
    refine .ite (placed_decides converts_directive list (by simp [kind, Kind.roles])
      fun _ => ⟨rfl, rfl⟩) fun h => ?_
    refine .ite (placed_decides converts_selection list (by simp [kind, Kind.roles])
      fun _ => ⟨rfl, rfl⟩) fun h' => ?_
    exact .throw (by simp [kind, Kind.roles, h, h']) rfl
  | .variableDefinition _ =>
    refine .ite (placed_decides converts_directive list (by simp [kind, Kind.roles])
      fun _ => ⟨rfl, rfl⟩) fun h => ?_
    exact .throw (by simp [kind, Kind.roles, h]) rfl
  | .selection (.field ..) =>
    refine .ite (placed_decides converts_argument list (by simp [kind, Kind.roles])
      fun _ => ⟨rfl, rfl⟩) fun h => ?_
    refine .ite (placed_decides converts_directive list (by simp [kind, Kind.roles])
      fun _ => ⟨rfl, rfl⟩) fun h' => ?_
    refine .ite (placed_decides converts_selection list (by simp [kind, Kind.roles])
      fun _ => ⟨rfl, rfl⟩) fun h'' => ?_
    exact .throw (by simp [kind, Kind.roles, h, h', h'']) rfl
  | .selection (.spread ..) =>
    refine .ite (placed_decides converts_directive list (by simp [kind, Kind.roles])
      fun _ => ⟨rfl, rfl⟩) fun h => ?_
    exact .throw (by simp [kind, Kind.roles, h]) rfl
  | .selection (.inline ..) =>
    refine .ite (placed_decides converts_directive list (by simp [kind, Kind.roles])
      fun _ => ⟨rfl, rfl⟩) fun h => ?_
    refine .ite (placed_decides converts_selection list (by simp [kind, Kind.roles])
      fun _ => ⟨rfl, rfl⟩) fun h' => ?_
    exact .throw (by simp [kind, Kind.roles, h, h']) rfl
  | .directive _ =>
    refine .ite (placed_decides converts_argument list (by simp [kind, Kind.roles])
      fun _ => ⟨rfl, rfl⟩) fun h => ?_
    exact .throw (by simp [kind, Kind.roles, h]) rfl
  | .argument _ => exact .throw (by simp [kind, Kind.roles]) rfl

/-! ### All roles -/

/-- What becomes of a node when the lists under several roles are exchanged. -/
structure Exchanged (e : Element) (groups : List (Role × List Handle)) (e' : Element) : Prop where
  bare : e'.bare = e.bare
  given : ∀ g ∈ groups, e'.listed g.1 = some (g.2.map Ref.value)
  kept : ∀ role ∉ groups.map Prod.fst, e'.children.get? role = e.children.get? role

theorem Placed.listed_self {e e' : Element} {list : List Handle} (h : Placed e role list e') :
    e'.listed role = some (list.map Ref.value) := by
  obtain ⟨handles, hvalues, hchildren⟩ := h.children
  rw [Element.listed, hchildren, Children.get?_insert, if_pos rfl, Option.map_some, hvalues]

theorem Placed.get?_of_ne {e e' : Element} {list : List Handle} (h : Placed e role list e')
    {r : Role} (hr : r ≠ role) : e'.children.get? r = e.children.get? r := by
  obtain ⟨handles, -, hchildren⟩ := h.children
  rw [hchildren, Children.get?_insert, if_neg hr.symm]

/-- Exchanging one list and then others, under other roles. -/
theorem Placed.exchanged {e e' e'' : Element} {list : List Handle}
    {groups : List (Role × List Handle)} (h : Placed e role list e')
    (hrest : Exchanged e' groups e'') (hrole : role ∉ groups.map Prod.fst) :
    Exchanged e ((role, list) :: groups) e'' where
  bare := hrest.bare.trans h.bare
  given := by
    rw [List.forall_mem_cons]
    refine ⟨?_, hrest.given⟩
    rw [← h.listed_self, Element.listed, Element.listed, hrest.kept role hrole]
  kept r hr := by
    rw [List.map_cons, List.mem_cons, not_or] at hr
    rw [hrest.kept r hr.2, h.get?_of_ne hr.1]

/-- **Several roles**: all lists are exchanged if they fit the kind of the node. -/
theorem Element.placeAll_decides (e : Element) {groups : List (Role × List Handle)}
    (hroles : (groups.map Prod.fst).Nodup) :
    (e.placeAll groups : Attempt σ Element).Decides (e.kind.Fits groups)
      (Exchanged e groups) := by
  induction groups generalizing e with
  | nil =>
    exact (Attempt.Decides.pure ⟨rfl, nofun, fun _ _ => rfl⟩).congr
      ⟨fun _ => nofun, fun _ => trivial⟩
  | cons g groups ih =>
    obtain ⟨role, list⟩ := g
    obtain ⟨hrole, hnodup⟩ := List.nodup_cons.mp hroles
    -- The kind stays the same, so the other lists fit the node that is left just as they fit `e`.
    have hrest : ∀ e', Placed e role list e' → (e'.placeAll groups : Attempt σ Element).Decides
        (e.kind.Fits groups) (Exchanged e ((role, list) :: groups)) := by
      intro e' hplaced
      rw [← kind_eq_of_bare hplaced.bare]
      exact (ih e' hnodup).imp fun e'' hexchanged => hplaced.exchanged hexchanged hrole
    exact ((e.place_decides role list).bind hrest).congr
      (Kind.fits_cons e.kind (role, list) groups).symm

/-! ### Rebuilding -/

/-- A node **rebuilt** from other children: its kind and its data are those of the original, under
the roles that are given it has the given nodes, and under the others it has its own. -/
structure Rebuilt (h : Handle) (c : Children Handle) (h' : Handle) : Prop where
  kind : h'.value.kind = h.value.kind
  bare : h'.value.bare = h.value.bare
  given : ∀ role list, c.get? role = some list →
    h'.value.listed role = some (list.map Ref.value)
  kept : ∀ role ∉ c.roles, h'.children.get? role = h.children.get? role

theorem Exchanged.rebuilt {h h' : Handle} {c : Children Handle}
    (hexchanged : Exchanged h.value c.groups h'.value) : Rebuilt h c h' where
  kind := Element.kind_eq_of_bare hexchanged.bare
  bare := hexchanged.bare
  given _ _ hlist := hexchanged.given _ (Children.mem_groups_of_get? hlist)
  kept := hexchanged.kept

/-- Rebuilding succeeds if the children **fit**, and fails otherwise. -/
theorem Handle.rebuild_decides (h : Handle) {c : Children Handle} (hc : c.roles.Nodup) :
    (h.rebuild c : Attempt σ Handle).Decides (h.value.kind.Fits c.groups) (Rebuilt h c) := by
  refine ((h.value.placeAll_decides hc).bind (q := True) fun e hexchanged => ?_).congr
    ⟨And.left, fun hfits => ⟨hfits, trivial⟩⟩
  intro s
  split
  · -- An argument has no lists to exchange, so it is the node that was given.
    next a =>
    have hself : h.value = .argument a := Element.eq_argument_of_bare hexchanged.bare.symm
    exact .inl ⟨trivial, h, s, rfl, Exchanged.rebuilt (hself ▸ hexchanged)⟩
  · exact .inl ⟨trivial, _, _, rfl, Exchanged.rebuilt hexchanged⟩

end Placing

/-! ### Reading a node off its children -/

theorem items_eq_of_listed {a b : Element} (hlisted : ∀ role, a.listed role = b.listed role)
    (role : Role) {α : Type} {x y : Block α} {element : α → Element}
    (hx : a.children.get? role = some (x.handles element))
    (hy : b.children.get? role = some (y.handles element))
    (helement : ∀ u v, element u = element v → u = v) : x.items = y.items := by
  have h := hlisted role
  rw [Element.listed, Element.listed, hx, hy, Option.map_some, Option.map_some,
    Block.map_value_handles, Block.map_value_handles] at h
  exact List.map_injective_iff.mpr (fun u v => helement u v) (Option.some.inj h)

/-- A node **reads** as its data and its children do. -/
theorem Element.erase_eq_of_listed {a b : Element} (hbare : a.bare = b.bare)
    (hlisted : ∀ role, a.listed role = b.listed role) : a.erase = b.erase := by
  have hkind : a.kind = b.kind := kind_eq_of_bare hbare
  rcases a with d | (o | f) | v | (⟨f, ss⟩ | ⟨n, ds⟩ | ⟨t, ds, ss⟩) | d | a <;>
    rcases b with d' | (o' | f') | v' | (⟨f', ss'⟩ | ⟨n', ds'⟩ | ⟨t', ds', ss'⟩) | d' | a' <;>
    cases hkind
  · have hdefinitions := items_eq_of_listed hlisted .definitions rfl rfl fun _ _ => definition.inj
    simp only [erase, Document.erase, hdefinitions]
  · have hvariables := items_eq_of_listed hlisted .variableDefinitions rfl rfl
      fun _ _ => variableDefinition.inj
    have hdirectives := items_eq_of_listed hlisted .directives rfl rfl fun _ _ => directive.inj
    have hselections := items_eq_of_listed hlisted .selections rfl rfl fun _ _ => selection.inj
    simp only [bare, definition.injEq, Definition.operation.injEq, Operation.mk.injEq] at hbare
    simp only [erase, Definition.erase, Operation.erase, eraseDirectives, eraseSelections, hbare,
      hvariables, hdirectives, hselections]
  · have hdirectives := items_eq_of_listed hlisted .directives rfl rfl fun _ _ => directive.inj
    have hselections := items_eq_of_listed hlisted .selections rfl rfl fun _ _ => selection.inj
    simp only [bare, definition.injEq, Definition.fragment.injEq, Fragment.mk.injEq] at hbare
    simp only [erase, Definition.erase, Fragment.erase, eraseDirectives, eraseSelections, hbare,
      hdirectives, hselections]
  · have hdirectives := items_eq_of_listed hlisted .directives rfl rfl fun _ _ => directive.inj
    simp only [bare, variableDefinition.injEq, VariableDefinition.mk.injEq] at hbare
    simp only [erase, VariableDefinition.erase, eraseDirectives, hbare, hdirectives]
  · have harguments := items_eq_of_listed hlisted .arguments rfl rfl fun _ _ => argument.inj
    have hdirectives := items_eq_of_listed hlisted .directives rfl rfl fun _ _ => directive.inj
    have hselections := items_eq_of_listed hlisted .selections rfl rfl fun _ _ => selection.inj
    simp only [bare, selection.injEq, Selection.field.injEq, Field.mk.injEq] at hbare
    simp only [erase, Selection.erase_field, Field.erase, Block.erase, eraseDirectives,
      eraseSelections, hbare, harguments, hdirectives, hselections]
  · have hdirectives := items_eq_of_listed hlisted .directives rfl rfl fun _ _ => directive.inj
    simp only [bare, selection.injEq, Selection.spread.injEq] at hbare
    simp only [erase, Selection.erase, eraseDirectives, hbare, hdirectives]
  · have hdirectives := items_eq_of_listed hlisted .directives rfl rfl fun _ _ => directive.inj
    have hselections := items_eq_of_listed hlisted .selections rfl rfl fun _ _ => selection.inj
    simp only [bare, selection.injEq, Selection.inline.injEq] at hbare
    simp only [erase, Selection.erase_inline, eraseDirectives, eraseSelections, hbare,
      hdirectives, hselections]
  · have harguments := items_eq_of_listed hlisted .arguments rfl rfl fun _ _ => argument.inj
    simp only [bare, directive.injEq, Directive.mk.injEq] at hbare
    simp only [erase, Directive.erase, Block.erase, hbare, harguments]
  · exact congrArg erase hbare

/-! ### The laws -/

theorem Definition.role?_element (d : Definition) :
    (Element.definition d).kind.role? = some .definitions := by
  cases d <;> rfl

theorem Selection.role?_element (s : Selection) :
    (Element.selection s).kind.role? = some .selections := by
  cases s <;> rfl

theorem Block.role?_handles {α : Type} (b : Block α) {element : α → Element} {role : Role}
    (helement : ∀ a, (element a).kind.role? = some role) :
    ∀ child ∈ b.handles element, child.value.kind.role? = some role := by
  intro child hchild
  obtain ⟨r, -, rfl⟩ := List.mem_map.mp hchild
  exact helement r.value

/-- The children of a node **fit** it. -/
theorem Element.fits_children (e : Element) : e.kind.Fits e.children.groups := by
  suffices h : ∀ g ∈ e.children.groups, ∀ child ∈ g.2, child.value.kind.role? = some g.1 from
    fun g hg => ⟨e.roles_children ▸ List.mem_map_of_mem hg, h g hg⟩
  have hdefinitions := fun b => Block.role?_handles b Definition.role?_element
  have hvariables := fun b => Block.role?_handles b fun v =>
    (rfl : (variableDefinition v).kind.role? = _)
  have hdirectives := fun b => Block.role?_handles b fun d =>
    (rfl : (directive d).kind.role? = _)
  have harguments := fun b => Block.role?_handles b fun a => (rfl : (argument a).kind.role? = _)
  have hselections := fun b => Block.role?_handles b Selection.role?_element
  fun_cases children e <;> simp only [selectionHandles, List.forall_mem_cons]
  · exact ⟨hdefinitions _, nofun⟩
  · exact ⟨hvariables _, hdirectives _, hselections _, nofun⟩
  · exact ⟨hdirectives _, hselections _, nofun⟩
  · exact ⟨hdirectives _, nofun⟩
  · exact ⟨harguments _, hdirectives _, hselections _, nofun⟩
  · exact ⟨hdirectives _, nofun⟩
  · exact ⟨hdirectives _, hselections _, nofun⟩
  · exact ⟨harguments _, nofun⟩
  · exact nofun

variable {h h' : Handle} {c : Children Handle}

theorem Rebuilt.listed (hrebuilt : Rebuilt h c h') (role : Role) :
    h'.value.listed role =
      ((c.get? role).map (List.map Ref.value)).or (h.value.listed role) := by
  cases hlist : c.get? role with
  | some list => exact hrebuilt.given role list hlist
  | none =>
    rw [Option.map_none, Option.none_or]
    exact congrArg (Option.map (List.map Ref.value))
      (hrebuilt.kept role (Children.get?_eq_none_iff.mp hlist))

/-- A node that is rebuilt from the children that it has **reads as before**. -/
theorem Rebuilt.erase_of_self (hrebuilt : Rebuilt h h.children h') :
    h'.value.erase = h.value.erase := by
  refine Element.erase_eq_of_listed hrebuilt.bare fun role => ?_
  rw [hrebuilt.listed]
  exact Option.or_self

/-- What was exchanged at first doesn't matter once the same roles are exchanged **again**. -/
theorem Rebuilt.erase_of_again {c' : Children Handle} {h₁ h₂ h₃ : Handle} (hfirst : Rebuilt h c h₁)
    (hagain : Rebuilt h₁ c' h₂) (honce : Rebuilt h c' h₃)
    (hroles : ∀ role ∈ c.roles, role ∈ c'.roles) : h₂.value.erase = h₃.value.erase := by
  have hbare := hagain.bare.trans (hfirst.bare.trans honce.bare.symm)
  refine Element.erase_eq_of_listed hbare fun role => ?_
  rw [hagain.listed, honce.listed, hfirst.listed]
  cases hlist : c'.get? role with
  | some list => rfl
  | none =>
    have hrole : role ∉ c.roles := fun h => Children.get?_eq_none_iff.mp hlist (hroles role h)
    rw [Children.get?_eq_none_iff.mpr hrole]
    rfl

/-- The **laws of the adapter**, for every node and all children by role. Rebuilding succeeds if the
children fit the kind of the node, and fails with an error of the adapter otherwise. A node that was
rebuilt has the kind and the data of the original, under the given roles the given nodes, and its
own children under the others. So a node that is rebuilt from its own children equals the original
and prints like it, and of two exchanges of the same roles only the later one counts. -/
theorem adapter_lawful {σ : Type} [Supply σ] (h : Handle) (c : Children Handle)
    (hc : c.roles.Nodup) (s : σ) :
    let rebuild (h : Handle) (c : Children Handle) (s : σ) := (adapter.rebuild h c).runWith s
    (h.value.kind.Fits c.groups → ∃ h' t, rebuild h c s = (.ok h', t) ∧ Rebuilt h c h') ∧
    (¬ h.value.kind.Fits c.groups → ∃ e t, rebuild h c s = (.error e, t) ∧ e.kind = .adapter) ∧
    (∃ h' t, rebuild h h.children s = (.ok h', t) ∧ (h'.value == h.value) = true ∧
      h'.value.print = h.value.print) ∧
    ∀ (c' : Children Handle) (h₁ : Handle) (t : σ), c'.roles.Nodup →
      (∀ role ∈ c.roles, role ∈ c'.roles) → rebuild h c s = (.ok h₁, t) →
      h.value.kind.Fits c'.groups → ∃ h₂ t₂ h₃ t₃, rebuild h₁ c' t = (.ok h₂, t₂) ∧
        rebuild h c' s = (.ok h₃, t₃) ∧ (h₂.value == h₃.value) = true := by
  intro rebuild
  have hdecides := h.rebuild_decides (σ := σ) hc
  have hown : h.children.roles.Nodup := h.value.roles_children ▸ h.value.kind.nodup_roles
  refine ⟨fun hfits => hdecides.succeeds hfits s, fun hfits => hdecides.fails hfits s, ?_, ?_⟩
  · obtain ⟨h', t, hrun, hrebuilt⟩ :=
      (h.rebuild_decides (σ := σ) hown).succeeds h.value.fits_children s
    have hequal := (Element.beq_iff_erase _ _).mpr hrebuilt.erase_of_self
    exact ⟨h', t, hrun, hequal, Element.print_eq_of_beq hequal⟩
  · intro c' h₁ t hc' hroles hrun hfits
    obtain ⟨-, hfirst⟩ := hdecides.of_ok hrun
    have hfits₁ : h₁.value.kind.Fits c'.groups := hfirst.kind.symm ▸ hfits
    obtain ⟨h₂, t₂, hrun₂, hagain⟩ := (h₁.rebuild_decides (σ := σ) hc').succeeds hfits₁ t
    obtain ⟨h₃, t₃, hrun₃, honce⟩ := (h.rebuild_decides (σ := σ) hc').succeeds hfits s
    exact ⟨h₂, t₂, h₃, t₃, hrun₂, hrun₃,
      (Element.beq_iff_erase _ _).mpr (hfirst.erase_of_again hagain honce hroles)⟩

/-! ### A field rebuilt twice -/

/-- The field `user(id: 1) @cached { name }`. -/
def userField : Handle :=
  ⟨⟨0, 0⟩, .selection (.field
    { alias? := none
      name := "user"
      arguments := ⟨1, [⟨"id", .int "1"⟩]⟩
      directives := ⟨2, [⟨"cached", .empty⟩]⟩ }
    ⟨3, [.field ⟨none, "name", .empty, .empty⟩ .empty]⟩)⟩

/-- Selections of two kinds, and no directives. -/
def userLists : Children Handle :=
  ⟨[(.selections, [⟨⟨5, 0⟩, .selection (.spread "Avatar" .empty)⟩,
      ⟨⟨5, 1⟩, .selection (.inline (some "User") .empty ⟨6, [.spread "Name" .empty]⟩)⟩]),
    (.directives, [])]⟩

/-- A directive, and one selection that stands twice in the list. -/
def laterUserLists : Children Handle :=
  ⟨[(.directives, [⟨⟨7, 0⟩, .directive ⟨"skip", ⟨8, [⟨"if", .bool true⟩]⟩⟩⟩]),
    (.selections, [⟨⟨5, 0⟩, .selection (.spread "Avatar" .empty)⟩,
      ⟨⟨5, 0⟩, .selection (.spread "Avatar" .empty)⟩])]⟩

theorem userLists_fit : userField.value.kind.Fits userLists.groups ∧
    userField.value.kind.Fits laterUserLists.groups := by
  unfold Kind.Fits
  decide

theorem adapter_lawful_field : userLists.roles.Nodup ∧ laterUserLists.roles.Nodup ∧
    (∀ role ∈ userLists.roles, role ∈ laterUserLists.roles) ∧
    ∃ h₁ t₁ h₂ t₂ h₃ t₃,
      ((adapter : Adapter Nat Handle).rebuild userField userLists).runWith 9 = (.ok h₁, t₁) ∧
      Rebuilt userField userLists h₁ ∧
      ((adapter : Adapter Nat Handle).rebuild h₁ laterUserLists).runWith t₁ = (.ok h₂, t₂) ∧
      ((adapter : Adapter Nat Handle).rebuild userField laterUserLists).runWith 9 = (.ok h₃, t₃) ∧
      (h₂.value == h₃.value) = true := by
  have hfirst : userLists.roles.Nodup := by decide
  have hlater : laterUserLists.roles.Nodup := by decide
  have hroles : ∀ role ∈ userLists.roles, role ∈ laterUserLists.roles := by decide
  obtain ⟨hok, -, -, hagain⟩ := adapter_lawful (σ := Nat) userField userLists hfirst 9
  obtain ⟨h₁, t₁, hrun, hrebuilt⟩ := hok userLists_fit.1
  obtain ⟨h₂, t₂, h₃, t₃, hrun₂, hrun₃, hequal⟩ :=
    hagain laterUserLists h₁ t₁ hlater hroles hrun userLists_fit.2
  exact ⟨hfirst, hlater, hroles, h₁, t₁, h₂, t₂, h₃, t₃, hrun, hrebuilt, hrun₂, hrun₃, hequal⟩

end Query

end Arborist
