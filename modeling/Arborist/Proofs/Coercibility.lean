import Arborist.Proofs.DeclaredTypes

/-!
# Coercible values

Which JSON values can be coerced to a type is told by the type: a list takes an array whose items
can be coerced, or anything that could stand as an item, `null` is taken everywhere but where it is
refused, and of the named types only the one for integers refuses anything at all (`Coercible`).
What comes of it is told by type and value together: an array becomes a list of as many values, and
anything else that stands where a list is asked for becomes a list of one, on every level
(`TakesShape`).

`coerce_ok_iff` says that coercion succeeds on exactly the coercible values, and that what it gives
has the shape. It is an induction on the type, for which `coerce_nonNull_iff` and the three laws of
lists (`coerce_list_null`, `coerce_list_array_iff`, `coerce_list_single_iff`) say what coercion does
on one level.
-/

namespace Arborist

/-! ### Runs over lists -/

section Runs

variable {α γ ε : Type} {f : α → Except ε γ}

/-- A run over a list gives one result for each item. -/
theorem mapM_ok_iff {as : List α} {cs : List γ} :
    as.mapM f = .ok cs ↔ List.Forall₂ (fun a c => f a = .ok c) as cs := by
  induction as generalizing cs with
  | nil =>
    rw [List.mapM_nil, List.forall₂_nil_left_iff]
    exact ⟨fun h => (Except.ok.inj h).symm, fun h => congrArg Except.ok h.symm⟩
  | cons a as ih =>
    rw [List.mapM_cons]
    constructor
    · intro h
      cases ha : f a with
      | error e =>
        rw [ha] at h
        cases h
      | ok c =>
        cases has : as.mapM f with
        | error e =>
          rw [ha, has] at h
          cases h
        | ok rest =>
          rw [ha, has] at h
          cases h
          exact .cons ha (ih.mp has)
    · rintro (_ | ⟨ha, has⟩)
      rw [ha, ih.mpr has]
      rfl

/-- A run over a list succeeds if it does so for every item. -/
theorem exists_mapM_ok_iff {as : List α} :
    (∃ cs, as.mapM f = .ok cs) ↔ ∀ a ∈ as, ∃ c, f a = .ok c := by
  simp only [mapM_ok_iff]
  induction as with
  | nil => exact ⟨fun _ => nofun, fun _ => ⟨[], .nil⟩⟩
  | cons a as ih =>
    rw [List.forall_mem_cons, ← ih]
    constructor
    · rintro ⟨_, _ | ⟨ha, has⟩⟩
      exact ⟨⟨_, ha⟩, _, has⟩
    · rintro ⟨⟨c, ha⟩, cs, has⟩
      exact ⟨c :: cs, .cons ha has⟩

end Runs

namespace Json

open Query

/-! ### What is asked of a value -/

/-- A **single** JSON value: neither `null` nor an array. -/
def Single (json : Json) : Prop :=
  json ≠ .null ∧ ∀ items, json ≠ .array items

/-- Where a list is asked for there are three kinds of values. -/
theorem null_or_array_or_single (json : Json) :
    json = .null ∨ (∃ items, json = .array items) ∨ json.Single := by
  cases json with
  | null => exact .inl rfl
  | array items => exact .inr (.inl ⟨items, rfl⟩)
  | _ => exact .inr (.inr ⟨nofun, nofun⟩)

/-- Whether a JSON value is **coercible** to a type. -/
def Coercible : TypeRef → Json → Prop
  | .named name, json =>
    name = "Int" → ∀ n, json = .number n → ∃ i, n = .int i ∧ Decimal.fitsInt64 i = true
  | .nonNull inner, json => json ≠ .null ∧ Coercible inner json
  | .list inner, json =>
    match json with
    | .null => True
    | .array items => ∀ item ∈ items, Coercible inner item
    | json => Coercible inner json

/-- Whether a value has the **shape** that a JSON value takes at a type. -/
def TakesShape : TypeRef → Json → Value → Prop
  | .named _, json, value => value = .null ↔ json = .null
  | .nonNull inner, json, value => value ≠ .null ∧ TakesShape inner json value
  | .list inner, json, value =>
    match json with
    | .null => value = .null
    | .array items => ∃ values, value = .list values ∧ List.Forall₂ (TakesShape inner) items values
    | json => ∃ item, value = .list [item] ∧ TakesShape inner json item

section Single

variable {json : Json} (h : json.Single) (inner : TypeRef)

include h

theorem Single.coercible_list : json.Coercible (.list inner) ↔ json.Coercible inner := by
  cases json with
  | null => exact absurd rfl h.1
  | array items => exact absurd rfl (h.2 items)
  | _ => rfl

theorem Single.takesShape_list (value : Value) : json.TakesShape (.list inner) value ↔
    ∃ item, value = .list [item] ∧ json.TakesShape inner item := by
  cases json with
  | null => exact absurd rfl h.1
  | array items => exact absurd rfl (h.2 items)
  | _ => rfl

end Single

/-! ### What coercion does on one level -/

section Levels

variable {inner : TypeRef} {json : Json} {value : Value}

theorem coerce_nonNull_iff : coerce (.nonNull inner) json = .ok value ↔
    json ≠ .null ∧ coerce inner json = .ok value := by
  cases json with
  | null => exact iff_of_false nofun fun h => h.1 rfl
  | _ => exact ⟨fun h => ⟨nofun, h⟩, And.right⟩

theorem coerce_list_null (inner : TypeRef) : coerce (.list inner) .null = .ok .null := rfl

theorem coerce_list_array_iff {items : List Json} :
    coerce (.list inner) (.array items) = .ok value ↔ ∃ values, value = .list values ∧
      List.Forall₂ (fun item value => coerce inner item = .ok value) items values := by
  simp only [← mapM_ok_iff]
  have hstep : coerce (.list inner) (.array items) =
      (items.mapM (coerce inner)).map Value.list := by
    rw [coerce]
    cases items.mapM (coerce inner) <;> rfl
  rw [hstep]
  cases items.mapM (coerce inner) with
  | error e => simp [Except.map]
  | ok values => simp [Except.map, eq_comm]

theorem coerce_list_single_iff (h : json.Single) : coerce (.list inner) json = .ok value ↔
    ∃ item, value = .list [item] ∧ coerce inner json = .ok item := by
  have hstep : coerce (.list inner) json = (coerce inner json).map fun item => .list [item] := by
    cases json with
    | null => exact absurd rfl h.1
    | array items => exact absurd rfl (h.2 items)
    | _ => rfl
  rw [hstep]
  cases coerce inner json with
  | error e => simp [Except.map]
  | ok item => simp [Except.map, eq_comm]

end Levels

theorem coerceNamed_of_not_number (name : String) {json : Json} (h : ∀ n, json ≠ .number n) :
    coerceNamed name json = .ok json.toValue := by
  cases json with
  | number n => exact absurd rfl (h n)
  | _ => rfl

theorem coerceNamed_signed {n : Json.Number} {i : Int} (h : n.asInt64? = some i) :
    coerceNamed "Int" (.number n) = .ok (.int (toString i)) := by
  simp [coerceNamed, h]

theorem coerceNamed_unsigned {n : Json.Number} (h : n.asInt64? = none) :
    coerceNamed "Int" (.number n) = .error .floatForInt := by
  simp [coerceNamed, h]

theorem asInt64?_eq_some_iff {n : Json.Number} {i : Int} :
    n.asInt64? = some i ↔ n = .int i ∧ Decimal.fitsInt64 i = true := by
  cases n with
  | float x => simp [Number.asInt64?]
  | int j =>
    by_cases hj : Decimal.fitsInt64 j = true
    · simp only [Number.asInt64?, if_pos hj, Option.some.injEq, Number.int.injEq]
      exact ⟨fun h => ⟨h, h ▸ hj⟩, And.left⟩
    · simp only [Number.asInt64?, if_neg hj, Number.int.injEq]
      exact ⟨nofun, fun ⟨h, hi⟩ => absurd (h ▸ hi) hj⟩

/-- A named type takes everything, but the type of integers no other numbers. -/
theorem exists_coerceNamed_iff (name : String) (json : Json) :
    (∃ value, coerceNamed name json = .ok value) ↔ json.Coercible (.named name) := by
  by_cases hnumber : ∃ n, json = .number n
  · obtain ⟨n, rfl⟩ := hnumber
    by_cases hname : name = "Int"
    · subst hname
      have hcoercible : Coercible (.named "Int") (.number n) ↔ ∃ i, n.asInt64? = some i := by
        simp [Coercible, asInt64?_eq_some_iff]
      rw [hcoercible]
      cases hi : n.asInt64? with
      | some i => exact iff_of_true ⟨_, coerceNamed_signed hi⟩ ⟨i, rfl⟩
      | none => simp [coerceNamed_unsigned hi]
    · refine iff_of_true ?_ fun h => absurd h hname
      simp only [coerceNamed, if_neg hname]
      split_ifs <;> exact ⟨_, rfl⟩
  · have hother : ∀ n, json ≠ .number n := not_exists.mp hnumber
    exact iff_of_true ⟨_, coerceNamed_of_not_number name hother⟩
      fun _ n hn => absurd hn (hother n)

theorem coerceNamed_null_iff {name : String} {json : Json} {value : Value}
    (h : coerceNamed name json = .ok value) : value = .null ↔ json = .null := by
  refine ⟨fun hvalue => eq_null_of_coerceNamed (hvalue ▸ h), ?_⟩
  rintro rfl
  exact (Except.ok.inj h).symm

/-! ### All levels -/

/-- Coercion **succeeds** on the coercible values, and on no others. -/
theorem exists_coerce_iff (type : TypeRef) (json : Json) :
    (∃ value, coerce type json = .ok value) ↔ json.Coercible type := by
  induction type generalizing json with
  | named name => exact exists_coerceNamed_iff name json
  | nonNull inner ih =>
    simp only [coerce_nonNull_iff, exists_and_left, ih]
    rfl
  | list inner ih =>
    obtain rfl | ⟨items, rfl⟩ | hsingle := json.null_or_array_or_single
    · exact iff_of_true ⟨_, coerce_list_null inner⟩ trivial
    · have hitems : (∃ value, coerce (.list inner) (.array items) = .ok value) ↔
          ∃ values, items.mapM (coerce inner) = .ok values := by
        simp only [coerce_list_array_iff, mapM_ok_iff]
        exact ⟨fun ⟨_, values, _, h⟩ => ⟨values, h⟩, fun ⟨values, h⟩ => ⟨_, values, rfl, h⟩⟩
      rw [hitems, exists_mapM_ok_iff]
      exact forall₂_congr fun item _ => ih item
    · rw [hsingle.coercible_list, ← ih]
      simp only [coerce_list_single_iff hsingle]
      exact ⟨fun ⟨_, item, _, h⟩ => ⟨item, h⟩, fun ⟨item, h⟩ => ⟨_, item, rfl, h⟩⟩

/-- What a value is coerced to has the **shape** that the value takes at the type. -/
theorem takesShape_of_coerce (type : TypeRef) {json : Json} {value : Value}
    (h : coerce type json = .ok value) : json.TakesShape type value := by
  induction type generalizing json value with
  | named name => exact coerceNamed_null_iff h
  | nonNull inner ih =>
    obtain ⟨hjson, hinner⟩ := coerce_nonNull_iff.mp h
    exact ⟨fun hvalue => hjson ((conforms_of_coerce inner hinner).2 hvalue), ih hinner⟩
  | list inner ih =>
    obtain rfl | ⟨items, rfl⟩ | hsingle := json.null_or_array_or_single
    · exact (Except.ok.inj h).symm
    · obtain ⟨values, rfl, hvalues⟩ := coerce_list_array_iff.mp h
      exact ⟨values, rfl, hvalues.imp fun _ _ hitem => ih hitem⟩
    · obtain ⟨item, rfl, hitem⟩ := (coerce_list_single_iff hsingle).mp h
      exact (hsingle.takesShape_list inner _).mpr ⟨item, rfl, ih hitem⟩

/-- **Coercion accepts exactly the coercible values**, and what it makes of them is of the declared
type: it conforms to the type, it has the shape that the value takes there, with a list of one on
every level where a single value stands for a list, and it is `null` only if the value is. -/
theorem coerce_ok_iff (type : TypeRef) (json : Json) :
    ((∃ value, coerce type json = .ok value) ↔ json.Coercible type) ∧
    ∀ value, coerce type json = .ok value →
      value.Conforms type ∧ json.TakesShape type value ∧ (value = .null → json = .null) := by
  refine ⟨exists_coerce_iff type json, fun value h => ?_⟩
  obtain ⟨hconforms, hnull⟩ := conforms_of_coerce type h
  exact ⟨hconforms, takesShape_of_coerce type h, hnull⟩

/-- A list of lists of integers, which must not be `null` but may have items that are. -/
def rowsType : TypeRef :=
  .nonNull (.list (.list (.nonNull (.named "Int"))))

/-- Rows of which one is not a list and one is `null`. -/
def looseRows : Json :=
  .array [.number (.int 1), .array [.number (.int (-2)), .string "x"], .null]

theorem coerce_ok_iff_rows : looseRows.Coercible rowsType ∧
    (∃ value, coerce rowsType looseRows = .ok value ∧
      value = .list [.list [.int "1"], .list [.int "-2", .str "x"], .null] ∧
      value.Conforms rowsType ∧ looseRows.TakesShape rowsType value) ∧
    ¬ (Json.array [.array [.null]]).Coercible rowsType ∧
    ¬ (Json.array [.number (.int 9223372036854775808)]).Coercible rowsType := by
  have hrows : coerce rowsType looseRows =
      .ok (.list [.list [.int "1"], .list [.int "-2", .str "x"], .null]) := rfl
  have hnull : ¬ ∃ value, coerce rowsType (.array [.array [.null]]) = .ok value := by
    rintro ⟨_, ⟨⟩⟩
  have hlarge : ¬ ∃ value,
      coerce rowsType (.array [.number (.int 9223372036854775808)]) = .ok value := by
    rintro ⟨_, ⟨⟩⟩
  obtain ⟨haccepted, hshaped⟩ := coerce_ok_iff rowsType looseRows
  obtain ⟨hconforms, hshape, -⟩ := hshaped _ hrows
  exact ⟨haccepted.mp ⟨_, hrows⟩, ⟨_, hrows, rfl, hconforms, hshape⟩,
    fun h => hnull ((coerce_ok_iff _ _).1.mpr h), fun h => hlarge ((coerce_ok_iff _ _).1.mpr h)⟩

end Json

end Arborist
