import Arborist.Json.Coercion
import Arborist.Proofs.DependencyOrder
import Mathlib

/-!
# Variables and their declared types

A value **conforms** to a type if it is a list where the type asks for one, and `null` only where
the type allows it. A JSON value that was coerced to a type conforms to it (`conforms_of_coerce`):
that is an induction on the type, which wraps and refuses on every level.

A variable that was not given gets its default, and there a list is made on the outermost level
only, and nothing is refused. `conforms_defaultFor_iff` says when that is enough, and
`coerceVariables_conforms_iff` what it means for all variables of an operation.
`coerceVariables_unshaped` shows what goes wrong otherwise.
-/

namespace Arborist

namespace Query

/-- Whether a value **conforms** to a type in where it is `null` and where it is a list. -/
def Value.Conforms : TypeRef → Value → Prop
  | .named _, _ => True
  | .list inner, value =>
    value = .null ∨ ∃ items, value = .list items ∧ ∀ item ∈ items, Conforms inner item
  | .nonNull inner, value => value ≠ .null ∧ Conforms inner value

/-- A value in the lists that a type asks for: anything but a list or `null` stands for a list of
one, on every level. -/
def Value.inLists : TypeRef → Value → Value
  | .named _, value => value
  | .list inner, value =>
    match value with
    | .null => .null
    | .list items => .list (items.map (inLists inner))
    | value => .list [inLists inner value]
  | .nonNull inner, value => inLists inner value

/-- A **single** value: neither `null` nor a list. -/
def Value.Single (value : Value) : Prop :=
  value ≠ .null ∧ ∀ items, value ≠ .list items

theorem Value.Single.not_conforms {value : Value} (h : value.Single) (inner : TypeRef) :
    ¬ value.Conforms (.list inner) := by
  rintro (hnull | ⟨items, hlist, -⟩)
  · exact h.1 hnull
  · exact h.2 items hlist

/-- A list of one conforms if its member does. -/
theorem Value.conforms_singleton_iff (inner : TypeRef) (value : Value) :
    (Value.list [value]).Conforms (.list inner) ↔ value.Conforms inner := by
  refine ⟨?_, fun h => .inr ⟨_, rfl, List.forall_mem_singleton.mpr h⟩⟩
  rintro (hnull | ⟨items, hlist, hitems⟩)
  · cases hnull
  · cases hlist
    exact hitems value List.mem_cons_self

end Query

namespace Json

open Query

/-! ### Values that are given -/

theorem eq_null_of_toValue {json : Json} (h : json.toValue = .null) : json = .null := by
  cases json with
  | null => rfl
  | number n =>
    rw [toValue] at h
    split at h <;> cases h
  | _ => cases h

theorem eq_null_of_coerceNamed {name : String} {json : Json}
    (h : coerceNamed name json = .ok .null) : json = .null := by
  cases json with
  | null => rfl
  | number n =>
    simp only [coerceNamed] at h
    split_ifs at h
    · cases h
    · split at h <;> cases h
    · cases h
    · cases h
    · exact eq_null_of_toValue (Except.ok.inj h)
  | _ => exact eq_null_of_toValue (Except.ok.inj h)

/-- What a successful run over a list gives comes from members of the list. -/
theorem exists_of_mem_mapM {α γ ε : Type} {f : α → Except ε γ} {as : List α} {cs : List γ}
    (h : as.mapM f = .ok cs) : ∀ c ∈ cs, ∃ a ∈ as, f a = .ok c := by
  induction as generalizing cs with
  | nil =>
    cases h
    exact nofun
  | cons a as ih =>
    rw [List.mapM_cons] at h
    cases ha : f a with
    | error e =>
      rw [ha] at h
      cases h
    | ok c =>
      cases has : as.mapM f with
      | error e =>
        rw [ha, has] at h
        cases h
      | ok cs' =>
        rw [ha, has] at h
        cases h
        rw [List.forall_mem_cons]
        refine ⟨⟨a, List.mem_cons_self, ha⟩, fun c' hc' => ?_⟩
        obtain ⟨a', ha', hf⟩ := ih has c' hc'
        exact ⟨a', List.mem_cons_of_mem _ ha', hf⟩

/-- A coerced value **conforms** to its type, and only `null` is coerced to `null`. -/
theorem conforms_of_coerce (type : TypeRef) {json : Json} {value : Value}
    (h : coerce type json = .ok value) :
    value.Conforms type ∧ (value = .null → json = .null) := by
  induction type generalizing json value with
  | named name => exact ⟨trivial, fun hnull => eq_null_of_coerceNamed (hnull ▸ h)⟩
  | nonNull inner ih =>
    unfold coerce at h
    split at h
    · cases h
    · next hjson =>
      obtain ⟨hconforms, hnull⟩ := ih h
      exact ⟨⟨fun hvalue => hjson (hnull hvalue), hconforms⟩, hnull⟩
  | list inner ih =>
    unfold coerce at h
    split at h
    · cases h
      exact ⟨.inl rfl, fun _ => rfl⟩
    · next items =>
      cases hitems : items.mapM (coerce inner) with
      | error e =>
        rw [hitems] at h
        cases h
      | ok values =>
        rw [hitems] at h
        cases h
        refine ⟨.inr ⟨values, rfl, fun v hv => ?_⟩, nofun⟩
        obtain ⟨item, -, hitem⟩ := exists_of_mem_mapM hitems v hv
        exact (ih hitem).1
    · cases hvalue : coerce inner json with
      | error e =>
        rw [hvalue] at h
        cases h
      | ok v =>
        rw [hvalue] at h
        cases h
        exact ⟨(v.conforms_singleton_iff inner).mpr (ih hvalue).1, nofun⟩

/-! ### Variables that are not given -/

/-- The default of a variable that was not given conforms to the type of the variable if it does so
as it stands, or if it is a single value that the outermost list of the type is made for. -/
theorem conforms_defaultFor_iff (v : VariableDefinition) :
    (defaultFor v).Conforms v.type ↔ v.default.Conforms v.type ∨
      ∃ inner, v.type = .list inner ∧ v.default.Single ∧ v.default.Conforms inner := by
  obtain ⟨name, type, value, directives⟩ := v
  cases type with
  | named name => exact ⟨.inl, fun _ => trivial⟩
  | nonNull inner =>
    refine ⟨.inl, ?_⟩
    rintro (h | ⟨inner', htype, -⟩)
    · exact h
    · cases htype
  | list inner =>
    have hsingle {value : Value} (h : value.Single) : (Value.list [value]).Conforms (.list inner) ↔
        value.Conforms (.list inner) ∨ ∃ inner', TypeRef.list inner = .list inner' ∧
          value.Single ∧ value.Conforms inner' := by
      rw [Value.conforms_singleton_iff]
      refine ⟨fun hconforms => .inr ⟨inner, rfl, h, hconforms⟩, ?_⟩
      rintro (hlist | ⟨inner', heq, -, hconforms⟩)
      · exact absurd hlist (h.not_conforms inner)
      · exact TypeRef.list.inj heq ▸ hconforms
    cases value with
    | null => exact iff_of_true (.inl rfl) (.inl (.inl rfl))
    | list items =>
      refine ⟨.inl, ?_⟩
      rintro (h | ⟨-, -, hlist, -⟩)
      · exact h
      · exact absurd rfl (hlist.2 items)
    | _ => exact hsingle ⟨nofun, nofun⟩

/-! ### All variables -/

/-- **All variables** of an operation: each has the value that was made for it. -/
theorem find?_of_coerced {definitions : List VariableDefinition} {fields : Dict Json}
    (hnames : (definitions.map VariableDefinition.name).Nodup) {before vars : Variables}
    (h : definitions.foldlM (fun vars v => do
      let value ← variableFrom fields v
      pure (vars.insert v.name value)) before = .ok vars) :
    (∀ name ∉ definitions.map VariableDefinition.name,
      Dict.find? name vars = Dict.find? name before) ∧
    ∀ v ∈ definitions, ∃ value, variableFrom fields v = .ok value ∧
      Dict.find? v.name vars = some value := by
  induction definitions generalizing before with
  | nil =>
    cases h
    exact ⟨fun _ _ => rfl, nofun⟩
  | cons v definitions ih =>
    obtain ⟨hname, hnames⟩ := List.nodup_cons.mp hnames
    rw [List.foldlM_cons] at h
    cases hvalue : variableFrom fields v with
    | error e =>
      rw [hvalue] at h
      cases h
    | ok value =>
      rw [hvalue] at h
      obtain ⟨hothers, hdefined⟩ := ih hnames h
      refine ⟨fun name hn => ?_, ?_⟩
      · rw [List.map_cons, List.mem_cons, not_or] at hn
        rw [hothers name hn.2, Dict.find?_insert, if_neg (Ne.symm hn.1)]
      · rw [List.forall_mem_cons]
        refine ⟨⟨value, hvalue, ?_⟩, hdefined⟩
        rw [hothers v.name hname, Dict.find?_insert, if_pos rfl]

/-- Exactly the defined variables have values. The value of a variable that was given **conforms**
to its type. That of a variable that was not given does so if its default conforms as it stands, or
if it is a single value where the type asks for a list of such values, and in no other case. -/
theorem coerceVariables_conforms_iff (definitions : List VariableDefinition)
    (hnames : (definitions.map VariableDefinition.name).Nodup) (fields : Dict Json)
    (vars : Variables) (h : coerceVariables definitions (.object fields) = .ok vars) :
    (∀ name, (Dict.find? name vars).isSome = true ↔
      name ∈ definitions.map VariableDefinition.name) ∧
    ∀ v ∈ definitions, ∃ value, Dict.find? v.name vars = some value ∧
      (value.Conforms v.type ↔ (Dict.find? v.name fields).isSome = true ∨
        v.default.Conforms v.type ∨
        ∃ inner, v.type = .list inner ∧ v.default.Single ∧ v.default.Conforms inner) := by
  have hfold : coerceVariables definitions (.object fields) =
      definitions.foldlM (fun (vars : Variables) v => do
        let value ← variableFrom fields v
        pure (vars.insert v.name value)) [] := by
    cases definitions <;> rfl
  obtain ⟨hothers, hdefined⟩ := find?_of_coerced hnames (hfold ▸ h)
  refine ⟨fun name => ⟨fun hsome => ?_, fun hname => ?_⟩, fun v hv => ?_⟩
  · by_contra hname
    rw [hothers name hname] at hsome
    cases hsome
  · obtain ⟨v, hv, rfl⟩ := List.mem_map.mp hname
    obtain ⟨value, -, hfind⟩ := hdefined v hv
    rw [hfind]
    rfl
  · obtain ⟨value, hvalue, hfind⟩ := hdefined v hv
    refine ⟨value, hfind, ?_⟩
    rw [variableFrom] at hvalue
    cases hgiven : Dict.find? v.name fields with
    | some json =>
      rw [hgiven] at hvalue
      exact iff_of_true (conforms_of_coerce v.type hvalue).1 (.inl rfl)
    | none =>
      rw [hgiven] at hvalue
      obtain rfl := Except.ok.inj hvalue
      rw [conforms_defaultFor_iff]
      exact ⟨.inr, fun h => h.resolve_left (by decide)⟩

/-! ### Samples -/

/-- A variable without directives. -/
def plainVariable (name : String) (type : TypeRef) (default : Value) : VariableDefinition :=
  ⟨name, type, default, .empty⟩

/-- A list that is given, a default for a list and one for a list that must not be `null`. -/
def shapedVariables : List VariableDefinition :=
  [plainVariable "rows" (.list (.nonNull (.list (.named "Int")))) .null,
    plainVariable "ids" (.list (.nonNull (.named "ID"))) (.int "7"),
    plainVariable "tags" (.nonNull (.list (.named "String"))) (.list [.str "a", .null])]

theorem coerceVariables_conforms_iff_shaped : (shapedVariables.map VariableDefinition.name).Nodup ∧
    ∃ vars, coerceVariables shapedVariables (.object [("rows", .number (.int 1))]) = .ok vars ∧
      ∀ v ∈ shapedVariables, ∃ value, Dict.find? v.name vars = some value ∧
        value.Conforms v.type := by
  have hnames : (shapedVariables.map VariableDefinition.name).Nodup := by decide
  have hvars : coerceVariables shapedVariables (.object [("rows", .number (.int 1))]) =
      .ok [("ids", .list [.int "7"]), ("rows", .list [.list [.int "1"]]),
        ("tags", .list [.str "a", .null])] := by
    rfl
  obtain ⟨-, hconforms⟩ := coerceVariables_conforms_iff _ hnames _ _ hvars
  have hshaped : ∀ v ∈ shapedVariables, v.name = "rows" ∨ v.default.Conforms v.type ∨
      ∃ inner, v.type = .list inner ∧ v.default.Single ∧ v.default.Conforms inner := by
    simp [shapedVariables, plainVariable, Value.Conforms, Value.Single]
  refine ⟨hnames, _, hvars, fun v hv => ?_⟩
  obtain ⟨value, hfind, hiff⟩ := hconforms v hv
  refine ⟨value, hfind, hiff.mpr ((hshaped v hv).imp_left fun hname => ?_)⟩
  rw [hname]
  rfl

/-- A variable that must not be `null` and has no default, and two defaults that stand for lists. -/
def unshapedVariables : List VariableDefinition :=
  [plainVariable "count" (.nonNull (.named "Int")) .null,
    plainVariable "grid" (.list (.list (.named "Int"))) (.int "5"),
    plainVariable "ids" (.nonNull (.list (.named "ID"))) (.int "5")]

/-- Every default is of the declared shape once it is put in the lists that its type asks for, but
that isn't done, and a missing value isn't refused. -/
theorem coerceVariables_unshaped : (unshapedVariables.map VariableDefinition.name).Nodup ∧
    (∀ v ∈ unshapedVariables, v.default ≠ .null →
      (v.default.inLists v.type).Conforms v.type) ∧
    ∃ vars, coerceVariables unshapedVariables (.object []) = .ok vars ∧
      ∀ v ∈ unshapedVariables, ∃ value, Dict.find? v.name vars = some value ∧
        ¬ value.Conforms v.type := by
  have hvars : coerceVariables unshapedVariables (.object []) =
      .ok [("count", .null), ("grid", .list [.int "5"]), ("ids", .int "5")] := by
    rfl
  refine ⟨by decide, ?_, _, hvars, ?_⟩
  · simp [unshapedVariables, plainVariable, Value.inLists, Value.Conforms]
  · simp [unshapedVariables, plainVariable, Value.Conforms, Dict.find?]

end Json

end Arborist
