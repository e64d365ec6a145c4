import Arborist.Query.Sharing
import Arborist.Proofs.DependencyOrder
import Arborist.Proofs.Equality

/-!
# Documents that read the same

Two documents **read the same** if they agree once the labels of their blocks are forgotten: they
differ at most in where their nodes are stored. Then they have the same operations and fragments,
as far as these read, under the same names and in the same order.

* `Selection.eq_field_of_erase` and its companions: a selection that reads like one of a kind is of
  that kind.
* `Selection.spreadsList_congr` and `Selection.sizeList_congr`: what is read off selections.
* `Document.operation_congr` and `Document.fragments_congr`: what is found in documents.
-/

namespace Arborist

namespace Dict

variable {α γ : Type}

/-- Changing the values of a dictionary leaves its keys alone. -/
def mapValues (g : α → γ) (d : Dict α) : Dict γ :=
  d.map fun e => (e.1, g e.2)

theorem mapValues_insert (g : α → γ) (key : String) (value : α) (d : Dict α) :
    mapValues g (d.insert key value) = insert key (g value) (mapValues g d) := by
  induction d with
  | nil => rfl
  | cons e d ih =>
    obtain ⟨k, v⟩ := e
    simp only [mapValues, insert, List.map_cons] at ih ⊢
    split
    · rfl
    · split
      · rfl
      · rw [List.map_cons, ih]

theorem mapValues_ofList (g : α → γ) (entries : List (String × α)) :
    mapValues g (ofList entries) = ofList (entries.map fun e => (e.1, g e.2)) := by
  suffices h : ∀ d : Dict α, mapValues g (entries.foldl (fun d e => insert e.1 e.2 d) d) =
      (entries.map fun e => (e.1, g e.2)).foldl (fun d e => insert e.1 e.2 d) (mapValues g d) from
    h []
  induction entries with
  | nil => exact fun _ => rfl
  | cons e entries ih =>
    intro d
    rw [List.foldl_cons, ih, mapValues_insert, List.map_cons, List.foldl_cons]

theorem find?_mapValues (g : α → γ) (key : String) (d : Dict α) :
    find? key (mapValues g d) = (find? key d).map g := by
  induction d with
  | nil => rfl
  | cons e d ih =>
    obtain ⟨k, v⟩ := e
    simp only [mapValues, find?, List.map_cons] at ih ⊢
    split
    · rfl
    · exact ih

end Dict

namespace Query

/-! ### Selections that read the same -/

section Erase

variable {s s' : Selection} {items items' : List Selection}

theorem Selection.eq_cons_of_eraseList (h : eraseList items' = eraseList (s :: items)) :
    ∃ s' rest, items' = s' :: rest ∧ s'.erase = s.erase ∧ eraseList rest = eraseList items := by
  cases items' with
  | nil => cases h
  | cons s' rest =>
    obtain ⟨hfirst, hrest⟩ := List.cons.inj h
    exact ⟨s', rest, rfl, hfirst, hrest⟩

/-- What reads like a field is a field. -/
theorem Selection.eq_field_of_erase {f : Field} {b : Block Selection}
    (h : s'.erase = (Selection.field f b).erase) : ∃ f' b', s' = .field f' b' ∧
      f'.erase = f.erase ∧ eraseList b'.items = eraseList b.items := by
  obtain ⟨label, items⟩ := b
  match s', h with
  | .field f' ⟨label', items'⟩, h =>
    obtain ⟨hfield, hblock⟩ := Selection.field.inj h
    exact ⟨f', _, rfl, hfield, (Block.mk.inj hblock).2⟩

theorem Selection.eq_spread_of_erase {name : String} {ds : Block Directive}
    (h : s'.erase = (Selection.spread name ds).erase) : ∃ ds', s' = .spread name ds' := by
  match s', h with
  | .spread name' ds', h =>
    obtain ⟨rfl, -⟩ := Selection.spread.inj h
    exact ⟨ds', rfl⟩

theorem Selection.eq_inline_of_erase {t : Option String} {ds : Block Directive}
    {b : Block Selection}
    (h : s'.erase = (Selection.inline t ds b).erase) : ∃ ds' b', s' = .inline t ds' b' ∧
      eraseDirectives ds' = eraseDirectives ds ∧ eraseList b'.items = eraseList b.items := by
  obtain ⟨label, items⟩ := b
  match s', h with
  | .inline t' ds' ⟨label', items'⟩, h =>
    obtain ⟨rfl, hdirectives, hblock⟩ := Selection.inline.inj h
    exact ⟨ds', _, rfl, hdirectives, (Block.mk.inj hblock).2⟩

end Erase

mutual

theorem Selection.spreads_erase : ∀ s : Selection, s.erase.spreads = s.spreads
  | .field _ ⟨_, items⟩ => by rw [erase, spreads, spreads, spreadsList_eraseList items]
  | .spread .. => rfl
  | .inline _ _ ⟨_, items⟩ => by rw [erase, spreads, spreads, spreadsList_eraseList items]

theorem Selection.spreadsList_eraseList : ∀ items : List Selection,
    spreadsList (eraseList items) = spreadsList items
  | [] => rfl
  | s :: items => by
    rw [eraseList, spreadsList, spreadsList, spreads_erase s, spreadsList_eraseList items]

end

mutual

theorem Selection.size_erase : ∀ s : Selection, s.erase.size = s.size
  | .field _ ⟨_, items⟩ => by rw [erase, size, size, sizeList_eraseList items]
  | .spread .. => rfl
  | .inline _ _ ⟨_, items⟩ => by rw [erase, size, size, sizeList_eraseList items]

theorem Selection.sizeList_eraseList : ∀ items : List Selection,
    sizeList (eraseList items) = sizeList items
  | [] => rfl
  | s :: items => by
    rw [eraseList, sizeList, sizeList, size_erase s, sizeList_eraseList items]

end

section Congr

variable {items items' : List Selection} {f f' : Fragment}

/-- What selections **spread** is there to be read. -/
theorem Selection.spreadsList_congr (h : eraseList items' = eraseList items) :
    spreadsList items' = spreadsList items := by
  rw [← spreadsList_eraseList items', h, spreadsList_eraseList]

/-- **How many** selections there are is there to be read. -/
theorem Selection.sizeList_congr (h : eraseList items' = eraseList items) :
    sizeList items' = sizeList items := by
  rw [← sizeList_eraseList items', h, sizeList_eraseList]

theorem Fragment.eraseList_items (h : f'.erase = f.erase) :
    Selection.eraseList f'.selections.items = Selection.eraseList f.selections.items :=
  congrArg (fun f => f.selections.items) h

theorem Fragment.spreads_congr (h : f'.erase = f.erase) : f'.spreads = f.spreads :=
  Selection.spreadsList_congr (eraseList_items h)

theorem Fragment.name_congr (h : f'.erase = f.erase) : f'.name = f.name :=
  congrArg (fun f => f.name) h

theorem Operation.eraseList_items {o o' : Operation} (h : o'.erase = o.erase) :
    Selection.eraseList o'.selections.items = Selection.eraseList o.selections.items :=
  congrArg (fun o => o.selections.items) h

end Congr

/-! ### Definitions -/

theorem Block.map_value_filterMap {α γ : Type} (b : Block α) (f : α → Option γ) :
    (b.refs.filterMap (Ref.filterMap f)).map Ref.value = b.items.filterMap f := by
  rw [List.map_filterMap, ← b.map_value_refs, List.filterMap_map]
  refine List.filterMap_congr fun r _ => ?_
  rw [Ref.filterMap, Option.map_map]
  exact Option.map_id_fun ▸ rfl

section Documents

variable {d d' : Document}

/-- What documents that read the same have of one kind reads the same. -/
theorem Document.map_erase {γ : Type} {kind : Definition → Option γ} {erase : γ → γ}
    (hkind : ∀ x : Definition, kind x.erase = (kind x).map erase) (h : d'.erase = d.erase) :
    (d'.definitions.refs.filterMap (Ref.filterMap kind)).map (fun r => erase r.value) =
      (d.definitions.refs.filterMap (Ref.filterMap kind)).map fun r => erase r.value := by
  have hread : ∀ d : Document,
      (d.definitions.refs.filterMap (Ref.filterMap kind)).map (fun r => erase r.value) =
        d.erase.definitions.items.filterMap kind := by
    intro d
    have hmap := congrArg (List.map erase) (d.definitions.map_value_filterMap kind)
    rw [List.map_map] at hmap
    refine hmap.trans ?_
    rw [List.map_filterMap, Document.erase, List.filterMap_map]
    exact List.filterMap_congr fun x _ => (hkind x).symm
  rw [hread, hread, h]

theorem Definition.fragment?_erase (x : Definition) :
    x.erase.fragment? = x.fragment?.map Fragment.erase := by
  cases x <;> rfl

theorem Definition.operation?_erase (x : Definition) :
    x.erase.operation? = x.operation?.map Operation.erase := by
  cases x <;> rfl

/-- Documents that read the same have **fragments** that read the same. -/
theorem Document.fragments_congr (h : d'.erase = d.erase) :
    Dict.mapValues (fun f => f.value.erase) d'.fragments =
      Dict.mapValues (fun f => f.value.erase) d.fragments := by
  have hread : ∀ d : Document, Dict.mapValues (fun f => f.value.erase) d.fragments =
      Dict.ofList (((d.definitions.refs.filterMap (Ref.filterMap Definition.fragment?)).map
        fun r => r.value.erase).map fun f => (f.name, f)) := by
    intro d
    rw [fragments, Dict.mapValues_ofList, List.map_map, List.map_map]
    rfl
  rw [hread, hread, Document.map_erase Definition.fragment?_erase h]

/-- They have the same operations as far as these read, and the same errors. -/
theorem Document.operation_congr (h : d'.erase = d.erase) (name : Option String) :
    (d'.operation name).map (·.value.erase) = (d.operation name).map (·.value.erase) := by
  have hread : d'.operations.map (fun r => r.value.erase) =
      d.operations.map fun r => r.value.erase :=
    Document.map_erase Definition.operation?_erase h
  cases name with
  | some name =>
    have hfind : ∀ d : Document, (d.operation (some name)).map (·.value.erase) =
        ((d.operations.map fun r => r.value.erase).find? (·.name = some name)).elim
          (.error (.unknownOperation name)) .ok := by
      intro d
      rw [operation, List.find?_map]
      change _ = ((d.operations.find? (·.value.name = some name)).map _).elim _ _
      cases d.operations.find? (·.value.name = some name) <;> rfl
    rw [hfind, hfind, hread]
  | none =>
    rw [operation, operation]
    cases hd : d.operations with
    | nil =>
      rw [hd, List.map_nil, List.map_eq_nil_iff] at hread
      rw [hread]
    | cons o rest =>
      rw [hd, List.map_cons, List.map_eq_cons_iff] at hread
      obtain ⟨o', rest', hd', ho, hrest⟩ := hread
      rw [hd']
      cases rest with
      | nil =>
        rw [List.map_nil, List.map_eq_nil_iff] at hrest
        subst hrest
        exact congrArg Except.ok ho
      | cons =>
        obtain ⟨_, _, rfl, -⟩ := List.map_eq_cons_iff.mp hrest
        rfl

end Documents

end Query

end Arborist
