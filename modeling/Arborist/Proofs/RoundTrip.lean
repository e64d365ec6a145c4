import Arborist.Json.Coercion
import Arborist.Json.OfValue
import Arborist.Proofs.DependencyOrder
import Mathlib

/-!
# JSON values taken as they are

A JSON value that is taken as it is and turned back into JSON **comes back**, as long as its
integers are signed words (`ofValue_toValue_iff`). An integer above them is taken for a float, and
the float that is read again is another number.

* `Decimal.int64?_toString`: the text of a signed word is read as that word.
* `Dict.ofList_eq_self`: entries that are in order stay as they are, so the fields of an object do.
-/

namespace Arborist

/-! ### Texts of integers -/

namespace Decimal

theorem digit?_of_isDigit {c : Char} (h : c.isDigit = true) :
    digit? c = some (c.toNat - '0'.toNat) := by
  rw [digit?, if_pos]
  rw [Char.isDigit, Bool.and_eq_true, decide_eq_true_eq, decide_eq_true_eq] at h
  exact h

theorem digitsFrom_eq {cs : List Char} (h : ∀ c ∈ cs, c.isDigit = true) (n : Nat) :
    digitsFrom n cs = some (Nat.ofDigitChars 10 cs n) := by
  induction cs generalizing n with
  | nil => rfl
  | cons c cs ih =>
    obtain ⟨hc, hcs⟩ := List.forall_mem_cons.mp h
    rw [digitsFrom, digit?_of_isDigit hc, Nat.ofDigitChars_cons]
    exact ih hcs _

/-- The digits of a number are read as that number. -/
theorem natural?_toDigits (n : Nat) : natural? (Nat.toDigits 10 n) = some n := by
  obtain ⟨c, cs, hcons⟩ := List.exists_cons_of_ne_nil (Nat.toDigits_ne_nil (n := n) (b := 10))
  have hnatural : natural? (Nat.toDigits 10 n) = digitsFrom 0 (Nat.toDigits 10 n) := by
    rw [hcons]
    rfl
  rw [hnatural, digitsFrom_eq fun c hc => Nat.isDigit_of_mem_toDigits (by decide) (by decide) hc,
    Nat.ofDigitChars_toDigits (by decide) (by decide)]

theorem splitSign_toDigits (n : Nat) :
    splitSign (Nat.toDigits 10 n) = (false, Nat.toDigits 10 n) := by
  obtain ⟨c, cs, hcons⟩ := List.exists_cons_of_ne_nil (Nat.toDigits_ne_nil (n := n) (b := 10))
  have hc : c.isDigit = true :=
    Nat.isDigit_of_mem_toDigits (by decide) (by decide) (hcons ▸ List.mem_cons_self)
  have hminus : c ≠ '-' := fun h => absurd (h ▸ hc) (by decide)
  have hplus : c ≠ '+' := fun h => absurd (h ▸ hc) (by decide)
  simp [hcons, splitSign, hminus, hplus]

/-- A signed word is **read from its text**. -/
theorem int64?_toString {i : Int} (h : fitsInt64 i = true) : int64? (toString i) = some i := by
  cases i with
  | ofNat n =>
    have htext : (toString (Int.ofNat n)).toList = Nat.toDigits 10 n := by
      simp [toString, Int.repr]
    simp only [int64?, htext, splitSign_toDigits, natural?_toDigits, Bool.false_eq_true, if_false]
    exact if_pos h
  | negSucc n =>
    have htext : (toString (Int.negSucc n)).toList = '-' :: Nat.toDigits 10 (n + 1) := by
      simp [toString, Int.repr]
    simp only [int64?, htext, splitSign, natural?_toDigits, if_true]
    exact if_pos h

end Decimal

/-! ### Entries that are in order -/

namespace Dict

variable {α γ : Type}

theorem insert_of_ascending {d : Dict α} {key : String} {value : α}
    (h : Ascending (d ++ [(key, value)])) : d.insert key value = d ++ [(key, value)] := by
  induction d with
  | nil => rfl
  | cons e d ih =>
    obtain ⟨k, v⟩ := e
    obtain ⟨hfirst, hrest⟩ := List.pairwise_cons.mp h
    have hlt : k < key := hfirst (key, value) (by simp)
    rw [insert, if_neg (fun heq : k = key => String.lt_irrefl key (heq ▸ hlt)),
      if_neg (String.lt_asymm hlt), ih hrest, List.cons_append]

theorem ofList_eq_self {d : Dict α} (h : d.Ascending) : ofList d = d := by
  suffices hfold : ∀ before after : Dict α, Ascending (before ++ after) →
      after.foldl (fun d e => d.insert e.1 e.2) before = before ++ after from hfold [] d h
  intro before after h
  induction after generalizing before with
  | nil => exact (List.append_nil before).symm
  | cons e after ih =>
    rw [List.append_cons] at h
    rw [List.foldl_cons, insert_of_ascending (List.pairwise_append.mp h).1, ih _ h,
      List.append_cons before e after]

/-- Order is a matter of keys. -/
theorem Ascending.of_keys {d : Dict α} {d' : Dict γ} (h : d.Ascending)
    (hkeys : d'.map Prod.fst = d.map Prod.fst) : d'.Ascending := by
  have hpairs : (d'.map Prod.fst).Pairwise (· < ·) := hkeys ▸ List.pairwise_map.mpr h
  exact List.pairwise_map.mp hpairs

end Dict

/-! ### There and back -/

namespace Json

/-- A JSON value whose numbers are **integers** of machine size, signed or unsigned. The fields of
its objects are in order. -/
inductive Integral : Json → Prop where
  | null : Integral .null
  | bool (b : Bool) : Integral (.bool b)
  | integer {i : Int} (h : Decimal.fitsInt64 i = true ∨ Decimal.fitsUInt64 i = true) :
      Integral (.number (.int i))
  | string (text : String) : Integral (.string text)
  | array {items : List Json} (h : ∀ json ∈ items, Integral json) : Integral (.array items)
  | object {fields : List (String × Json)} (horder : Dict.Ascending fields)
      (h : ∀ field ∈ fields, Integral field.2) : Integral (.object fields)

mutual

/-- The integers in a JSON value. -/
def integers : Json → List Int
  | .number (.int i) => [i]
  | .array items => integersOf items
  | .object fields => integersWithin fields
  | _ => []
termination_by structural json => json

/-- The integers in a list of JSON values. -/
def integersOf : List Json → List Int
  | [] => []
  | json :: rest => json.integers ++ integersOf rest
termination_by structural items => items

/-- The integers in the fields of an object. -/
def integersWithin : List (String × Json) → List Int
  | [] => []
  | (_, json) :: rest => json.integers ++ integersWithin rest
termination_by structural fields => fields

end

/-- Whether all integers of a list are signed words. -/
def Signed (is : List Int) : Prop :=
  ∀ i ∈ is, Decimal.fitsInt64 i = true

theorem signed_append {is js : List Int} : Signed (is ++ js) ↔ Signed is ∧ Signed js :=
  List.forall_mem_append

theorem keys_toFields : ∀ fields : List (String × Json),
    (toFields fields).map Prod.fst = fields.map Prod.fst
  | [] => rfl
  | (name, _) :: fields => congrArg (name :: ·) (keys_toFields fields)

theorem keys_ofFieldsWith (lookup : String → Json) : ∀ fields : List (String × Query.Value),
    (ofFieldsWith lookup fields).map Prod.fst = fields.map Prod.fst
  | [] => rfl
  | (name, _) :: fields => congrArg (name :: ·) (keys_ofFieldsWith lookup fields)

/-- A float never turns into an integer. -/
theorem ofFloatText_ne_int (text : String) (i : Int) : ofFloatText text ≠ .number (.int i) := by
  rw [ofFloatText]
  split <;> nofun

theorem ofValue_integer_iff (lookup : String → Json) (i : Int) :
    ofValueWith lookup (toValue (.number (.int i))) = .number (.int i) ↔
      Decimal.fitsInt64 i = true := by
  by_cases h : Decimal.fitsInt64 i = true
  · have hint : Number.asInt64? (.int i) = some i := if_pos h
    rw [toValue, hint, ofValueWith, ofIntText, Decimal.int64?_toString h]
    exact iff_of_true rfl h
  · have hfloat : Number.asInt64? (.int i) = none := if_neg h
    rw [toValue, hfloat, ofValueWith]
    exact iff_of_false (ofFloatText_ne_int _ i) h

section

variable (lookup : String → Json)

mutual

theorem comesBack_iff : ∀ json : Json, json.Integral →
    (ofValueWith lookup json.toValue = json ↔ Signed json.integers)
  | .null, _ => ⟨fun _ => nofun, fun _ => rfl⟩
  | .bool _, _ => ⟨fun _ => nofun, fun _ => rfl⟩
  | .number (.int i), _ => by
    rw [ofValue_integer_iff, integers, Signed, List.forall_mem_singleton]
  | .string _, _ => ⟨fun _ => nofun, fun _ => rfl⟩
  | .array items, .array h => by
    rw [toValue, ofValueWith, integers, array.injEq, comeBack_iff items h]
  | .object fields, .object horder h => by
    rw [toValue, ofValueWith, Dict.ofList_eq_self, integers, object.injEq,
      fieldsComeBack_iff fields h]
    exact horder.of_keys ((keys_ofFieldsWith lookup _).trans (keys_toFields fields))

theorem comeBack_iff : ∀ items : List Json, (∀ json ∈ items, json.Integral) →
    (ofValuesWith lookup (toValues items) = items ↔ Signed (integersOf items))
  | [], _ => ⟨fun _ => nofun, fun _ => rfl⟩
  | json :: items, h => by
    rw [toValues, ofValuesWith, integersOf, List.cons_eq_cons, signed_append,
      comesBack_iff json (h json List.mem_cons_self),
      comeBack_iff items fun x hx => h x (List.mem_cons_of_mem _ hx)]

theorem fieldsComeBack_iff : ∀ fields : List (String × Json),
    (∀ field ∈ fields, field.2.Integral) →
    (ofFieldsWith lookup (toFields fields) = fields ↔ Signed (integersWithin fields))
  | [], _ => ⟨fun _ => nofun, fun _ => rfl⟩
  | (name, json) :: fields, h => by
    rw [toFields, ofFieldsWith, integersWithin, List.cons_eq_cons, signed_append, Prod.mk.injEq,
      comesBack_iff json (h _ List.mem_cons_self),
      fieldsComeBack_iff fields fun x hx => h x (List.mem_cons_of_mem _ hx)]
    simp

end

end

theorem ofFieldsWith_eq_map (lookup : String → Json) (fields : List (String × Query.Value)) :
    ofFieldsWith lookup fields =
      fields.map fun (name, value) => (name, ofValueWith lookup value) := by
  induction fields with
  | nil => rfl
  | cons field fields ih => rw [ofFieldsWith, ih, List.map_cons]

/-- Variables that were taken from an object as they are make the object that its fields make. -/
theorem ofVariables_toFields {fields : List (String × Json)} (h : Dict.Ascending fields) :
    ofVariables (toFields fields) = .object (ofFieldsWith (fun _ => .null) (toFields fields)) := by
  have horder := h.of_keys ((keys_ofFieldsWith (fun _ => .null) _).trans (keys_toFields fields))
  rw [← Dict.ofList_eq_self horder, ofFieldsWith_eq_map]
  rfl

/-- A JSON value without floats that is taken as it is **comes back** if all its integers are signed
words, and only then. So does an object by way of variables. -/
theorem ofValue_toValue_iff (json : Json) (h : json.Integral) :
    (ofValue none json.toValue = json ↔ Signed json.integers) ∧
    ∀ fields, json = .object fields →
      ∃ vars, toVariables json = .ok vars ∧ (ofVariables vars = json ↔ Signed json.integers) := by
  refine ⟨comesBack_iff _ json h, ?_⟩
  rintro fields rfl
  obtain ⟨horder, hfields⟩ : Dict.Ascending fields ∧ ∀ field ∈ fields, field.2.Integral := by
    cases h with
    | object horder hfields => exact ⟨horder, hfields⟩
  have hvars : Dict.ofList (toFields fields) = toFields fields :=
    Dict.ofList_eq_self (horder.of_keys (keys_toFields fields))
  refine ⟨toFields fields, by rw [toVariables, hvars], ?_⟩
  rw [ofVariables_toFields horder, object.injEq, integers]
  exact fieldsComeBack_iff _ fields hfields

/-- An object with the least and the greatest signed word. -/
def limits : Json :=
  .object [("greatest", .number (.int 9223372036854775807)),
    ("other", .array [.null, .bool true, .object [("", .string "\"")], .array []]),
    ("smallest", .number (.int (-9223372036854775808)))]

theorem limits_integral : limits.Integral := by
  have hkeys : ["greatest", "other", "smallest"].Pairwise (· < ·) := by decide +kernel
  refine .object (List.pairwise_map.mp hkeys) ?_
  simp only [List.forall_mem_cons]
  refine ⟨.integer (.inl (by decide)), .array ?_, .integer (.inl (by decide)), nofun⟩
  simp only [List.forall_mem_cons]
  refine ⟨.null, .bool true, .object (List.pairwise_singleton _ _) ?_, .array nofun, nofun⟩
  simp only [List.forall_mem_cons]
  exact ⟨.string _, nofun⟩

theorem ofValue_toValue_iff_limits : limits.Integral ∧ Signed limits.integers ∧
    ofValue none limits.toValue = limits ∧
    ∃ vars, toVariables limits = .ok vars ∧ ofVariables vars = limits := by
  have hsigned : Signed limits.integers := by
    unfold Signed
    decide
  obtain ⟨hcomesBack, hobject⟩ := ofValue_toValue_iff limits limits_integral
  obtain ⟨vars, hvars, hback⟩ := hobject _ rfl
  exact ⟨limits_integral, hsigned, hcomesBack.mpr hsigned, vars, hvars, hback.mpr hsigned⟩

/-- The greatest unsigned word doesn't come back: it is taken for a float, which is written with
fewer digits and is no integer when it is read. -/
theorem ofValue_toValue_unsigned : (Json.number (.int 18446744073709551615)).Integral ∧
    toValue (.number (.int 18446744073709551615)) = .float "18446744073709552000" ∧
    ofValue none (toValue (.number (.int 18446744073709551615))) ≠
      .number (.int 18446744073709551615) := by
  have htext : Number.toFloatText (.int 18446744073709551615) = "18446744073709552000" := by
    decide +kernel
  have htaken : toValue (.number (.int 18446744073709551615)) = .float "18446744073709552000" :=
    congrArg Query.Value.float htext
  refine ⟨.integer (.inr (by decide)), htaken, ?_⟩
  rw [htaken, ofValue, ofValueWith]
  exact ofFloatText_ne_int _ _

end Json

end Arborist
