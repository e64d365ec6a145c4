import Arborist.Proofs.Coercibility
import Arborist.Proofs.NumberTexts

/-!
# Coercing what was coerced

A value that JSON was coerced to can be turned into JSON and be coerced to the type again, and
**nothing changes** the second time (`coerce_ofValue`). The JSON that lies between need not be what
there was at first: numbers became truth values or texts, unsigned words became floats, and single
values became lists.

The text of a float is read as that float (`Number.numeral?_toFloatText`), and fields that are in
order stay in order. Values that are taken as they are are therefore the same when they are taken
again (`toValue_ofValueWith`), which settles the named types (`coerceNamed_ofValueWith`). For lists
and for types without `null` there is one law each (`coerce_list_ofValueWith`,
`eq_null_of_coerce_null`).
-/

namespace Arborist.Json

open Query

/-! ### Well-formed values -/

/-- The floats among JSON numbers are to be **well-formed**. -/
def Number.WellFormed : Json.Number → Prop
  | .int _ => True
  | .float x => x.WellFormed

theorem Number.WellFormed.asBinary64 {n : Json.Number} (h : n.WellFormed) :
    n.asBinary64.WellFormed := by
  cases n with
  | int i => exact Decimal.ofInt_wellFormed i
  | float x => exact h

/-- The text of a number as a float is read as that float. -/
theorem Number.numeral?_toFloatText {n : Json.Number} (h : n.WellFormed) :
    Decimal.numeral? n.toFloatText = some (.finite n.asBinary64) :=
  Decimal.numeral?_print floatStyle h.asBinary64

/-- A **well-formed** JSON value: its numbers are well-formed, and the fields of its objects are in
order. -/
inductive WellFormed : Json → Prop where
  | null : WellFormed .null
  | bool (b : Bool) : WellFormed (.bool b)
  | number {n : Json.Number} (h : n.WellFormed) : WellFormed (.number n)
  | string (text : String) : WellFormed (.string text)
  | array {items : List Json} (h : ∀ json ∈ items, WellFormed json) : WellFormed (.array items)
  | object {fields : List (String × Json)} (horder : Dict.Ascending fields)
      (h : ∀ field ∈ fields, WellFormed field.2) : WellFormed (.object fields)

/-! ### Values as they are -/

section

variable (lookup : String → Json)

theorem ofValueWith_int {n : Json.Number} {i : Int} (h : n.asInt64? = some i) :
    ofValueWith lookup (.int (toString i)) = .number n := by
  obtain ⟨rfl, hi⟩ := asInt64?_eq_some_iff.mp h
  rw [ofValueWith, ofIntText, Decimal.int64?_toString hi]

theorem ofValueWith_float {n : Json.Number} (h : n.WellFormed) :
    ofValueWith lookup (.float n.toFloatText) = .number (.float n.asBinary64) := by
  rw [ofValueWith, ofFloatText, Number.numeral?_toFloatText h]

theorem toValue_ofValueWith_number {n : Json.Number} (h : n.WellFormed) :
    (ofValueWith lookup (toValue (.number n))).toValue = toValue (.number n) := by
  rw [toValue]
  cases hint : n.asInt64? with
  | some i =>
    rw [ofValueWith_int lookup hint, toValue, hint]
  | none =>
    rw [ofValueWith_float lookup h]
    rfl

mutual

/-- A value that is **taken as it is** is the same when it is taken again. -/
theorem toValue_ofValueWith : ∀ json : Json, json.WellFormed →
    (ofValueWith lookup json.toValue).toValue = json.toValue
  | .null, _ => rfl
  | .bool _, _ => rfl
  | .number _, .number h => toValue_ofValueWith_number lookup h
  | .string _, _ => rfl
  | .array items, .array h => by
    rw [toValue, ofValueWith, toValue, toValues_ofValuesWith items h]
  | .object fields, .object horder h => by
    have hkeys := (keys_ofFieldsWith lookup _).trans (keys_toFields fields)
    rw [toValue, ofValueWith, Dict.ofList_eq_self (horder.of_keys hkeys), toValue,
      toFields_ofFieldsWith fields h]

theorem toValues_ofValuesWith : ∀ items : List Json, (∀ json ∈ items, json.WellFormed) →
    toValues (ofValuesWith lookup (toValues items)) = toValues items
  | [], _ => rfl
  | json :: items, h => by
    rw [toValues, ofValuesWith, toValues, toValue_ofValueWith json (h json List.mem_cons_self),
      toValues_ofValuesWith items fun x hx => h x (List.mem_cons_of_mem _ hx)]

theorem toFields_ofFieldsWith : ∀ fields : List (String × Json),
    (∀ field ∈ fields, field.2.WellFormed) →
    toFields (ofFieldsWith lookup (toFields fields)) = toFields fields
  | [], _ => rfl
  | (_, json) :: fields, h => by
    rw [toFields, ofFieldsWith, toFields, toValue_ofValueWith json (h _ List.mem_cons_self),
      toFields_ofFieldsWith fields fun x hx => h x (List.mem_cons_of_mem _ hx)]

end

/-! ### Named types -/

theorem ofValueWith_ne_number {json : Json} (h : ∀ n, json ≠ .number n) (m : Json.Number) :
    ofValueWith lookup json.toValue ≠ .number m := by
  cases json with
  | number n => exact absurd rfl (h n)
  | _ => nofun

/-- A type that is none of those for numbers, truth values and texts takes a number as it is. -/
theorem coerceNamed_other {name : String} (hbool : name ≠ "Boolean") (hint : name ≠ "Int")
    (hfloat : name ≠ "Float") (htext : ¬ (name = "ID" ∨ name = "String")) (json : Json) :
    coerceNamed name json = .ok json.toValue := by
  cases json with
  | number n =>
    simp only [coerceNamed, if_neg hbool, if_neg hint, if_neg hfloat, if_neg htext]
  | _ => rfl

/-- What a **named type** made of a value, it leaves as it is. -/
theorem coerceNamed_ofValueWith {name : String} {json : Json} (hjson : json.WellFormed)
    {value : Value} (h : coerceNamed name json = .ok value) :
    coerceNamed name (ofValueWith lookup value) = .ok value := by
  have hasIs (hfirst : coerceNamed name json = .ok json.toValue)
      (hsecond : coerceNamed name (ofValueWith lookup json.toValue) =
        .ok (ofValueWith lookup json.toValue).toValue) :
      coerceNamed name (ofValueWith lookup value) = .ok value := by
    obtain rfl := Except.ok.inj (hfirst.symm.trans h)
    rw [hsecond, toValue_ofValueWith lookup json hjson]
  by_cases hnumber : ∃ n, json = .number n
  case neg =>
    have hother := not_exists.mp hnumber
    exact hasIs (coerceNamed_of_not_number name hother)
      (coerceNamed_of_not_number name (ofValueWith_ne_number lookup hother))
  obtain ⟨n, rfl⟩ := hnumber
  have hn : n.WellFormed := by
    cases hjson with
    | number hn => exact hn
  by_cases hbool : name = "Boolean"
  · subst hbool
    cases h
    rfl
  by_cases hint : name = "Int"
  · subst hint
    cases hi : n.asInt64? with
    | none => cases (coerceNamed_unsigned hi).symm.trans h
    | some i =>
      obtain rfl := Except.ok.inj ((coerceNamed_signed hi).symm.trans h)
      rw [ofValueWith_int lookup hi, coerceNamed_signed hi]
  by_cases hfloat : name = "Float"
  · subst hfloat
    cases h
    rw [ofValueWith_float lookup hn]
    rfl
  by_cases htext : name = "ID" ∨ name = "String"
  · simp only [coerceNamed, if_neg hbool, if_neg hint, if_neg hfloat, if_pos htext] at h
    obtain rfl := Except.ok.inj h
    rfl
  · exact hasIs (coerceNamed_other hbool hint hfloat htext _)
      (coerceNamed_other hbool hint hfloat htext _)

end

/-! ### Lists and types without `null` -/

theorem ofValuesWith_eq_map (lookup : String → Json) (values : List Value) :
    ofValuesWith lookup values = values.map (ofValueWith lookup) := by
  induction values with
  | nil => rfl
  | cons value values ih => rw [ofValuesWith, ih, List.map_cons]

theorem coerce_list_ofValueWith {lookup : String → Json} {inner : TypeRef} {values : List Value}
    (h : ∀ value ∈ values, coerce inner (ofValueWith lookup value) = .ok value) :
    coerce (.list inner) (ofValueWith lookup (.list values)) = .ok (.list values) := by
  rw [ofValueWith, ofValuesWith_eq_map]
  exact coerce_list_array_iff.mpr
    ⟨values, rfl, List.forall₂_map_left_iff.mpr (List.forall₂_same.mpr h)⟩

theorem eq_null_of_coerce_null {type : TypeRef} {value : Value}
    (h : coerce type .null = .ok value) : value = .null := by
  cases type with
  | nonNull inner => cases h
  | _ => exact (Except.ok.inj h).symm

/-! ### All types -/

theorem coerce_ofValueWith (lookup : String → Json) (type : TypeRef) {json : Json}
    (hjson : json.WellFormed) {value : Value} (h : coerce type json = .ok value) :
    coerce type (ofValueWith lookup value) = .ok value := by
  induction type generalizing json value with
  | named name => exact coerceNamed_ofValueWith lookup hjson h
  | nonNull inner ih =>
    obtain ⟨hnonNull, hinner⟩ := coerce_nonNull_iff.mp h
    have hagain := ih hjson hinner
    refine coerce_nonNull_iff.mpr ⟨fun hnull => ?_, hagain⟩
    rw [hnull] at hagain
    exact hnonNull ((conforms_of_coerce inner hinner).2 (eq_null_of_coerce_null hagain))
  | list inner ih =>
    obtain rfl | ⟨items, rfl⟩ | hsingle := json.null_or_array_or_single
    · obtain rfl := eq_null_of_coerce_null h
      rfl
    · obtain ⟨values, rfl, hvalues⟩ := coerce_list_array_iff.mp h
      cases hjson with
      | array hitems =>
        refine coerce_list_ofValueWith fun value hvalue => ?_
        obtain ⟨item, hitem, hcoerce⟩ :=
          exists_of_mem_mapM (mapM_ok_iff.mpr hvalues) value hvalue
        exact ih (hitems item hitem) hcoerce
    · obtain ⟨item, rfl, hitem⟩ := (coerce_list_single_iff hsingle).mp h
      exact coerce_list_ofValueWith (List.forall_mem_singleton.mpr (ih hjson hitem))

/-- What JSON was **coerced** to is coerced to itself when it is turned into JSON. -/
theorem coerce_ofValue (vars : Option Variables) (type : TypeRef) (json : Json)
    (hjson : json.WellFormed) (value : Value) (h : coerce type json = .ok value) :
    coerce type (ofValue vars value) = .ok value :=
  coerce_ofValueWith _ type hjson h

/-- Rows of floats, of which none is `null`. -/
def measuresType : TypeRef :=
  .nonNull (.list (.list (.nonNull (.named "Float"))))

/-- A float that stands for a row, a row with the greatest unsigned word and something that is no
number, and a row that is missing. -/
def measures : Json :=
  .array [.number (.float ⟨false, 5629499534213120, -51⟩),
    .array [.number (.int 18446744073709551615), .object [("unit", .number (.int (-1)))]], .null]

theorem measures_wellFormed : measures.WellFormed := by
  have hhalf : Number.WellFormed (.float ⟨false, 5629499534213120, -51⟩) :=
    ⟨by decide, by decide, by decide, .inr (by decide)⟩
  refine .array ?_
  simp only [List.forall_mem_cons]
  refine ⟨.number hhalf, .array ?_, .null, nofun⟩
  simp only [List.forall_mem_cons]
  refine ⟨.number trivial, .object (List.pairwise_singleton _ _) ?_, nofun⟩
  exact List.forall_mem_singleton.mpr (.number trivial)

theorem coerce_ofValue_measures : measures.WellFormed ∧
    ∃ value, coerce measuresType measures = .ok value ∧
      value = .list [.list [.float "2.5"],
        .list [.float "18446744073709552000", .object [("unit", .int "-1")]], .null] ∧
      coerce measuresType (ofValue none value) = .ok value := by
  have hhalf : Number.toFloatText (.float ⟨false, 5629499534213120, -51⟩) = "2.5" := by
    decide +kernel
  have hunsigned :
      Number.toFloatText (.int 18446744073709551615) = "18446744073709552000" := by
    decide +kernel
  have hmeasures : coerce measuresType measures = .ok (.list [.list [.float "2.5"],
      .list [.float "18446744073709552000", .object [("unit", .int "-1")]], .null]) := by
    rw [← hhalf, ← hunsigned]
    rfl
  exact ⟨measures_wellFormed, _, hmeasures, rfl,
    coerce_ofValue none measuresType measures measures_wellFormed _ hmeasures⟩

end Arborist.Json
