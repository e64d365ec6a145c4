import Arborist.Proofs.Levels
import Arborist.Proofs.Records
import Arborist.Proofs.Rewriting

/-!
# Drafts and the record

A callback of a rewrite works on a `Draft`, and a callback of a walk on a `Desk`, whose record holds
the edits of all callbacks so far. A desk is **booked** like a draft if the edits that the record
has for the position are those that the draft stands for.

* `Booked.perform`: every request has the same answer on both sides, and leaves the desk booked like
  the draft. A second replacement amends the edit that the first one left in the record, and it
  finds that edit by the identity of the node. So no identity may occur twice among the nodes of a
  record, and this holds as long as every node that is supplied is new (`Logged`).
* `revise_consult`: a callback comes to the same on both sides.
-/

namespace Arborist

variable {σ N A κ : Type} {β : κ → Type}

/-! ### Programs that are run up to a condition -/

namespace Program

variable {V Q S T α : Type}

/-- What holds at the end held before, if every request keeps it from appearing. -/
theorem run_backwards {G : T → Prop} {view : T → V} {perform : Q → Attempt T Unit}
    (hback : ∀ q t, G ((perform q).runWith t).2 → G t) (p : Program V Q α) {t : T}
    (h : G (p.run view perform t).2) : G t := by
  induction p generalizing t with
  | done a => exact h
  | look next ih => exact ih _ h
  | ask q next ih => exact hback q t (ih _ h)

/-- **Related states** stay related, as long as a condition holds that held all the time if it holds
at the end. -/
theorem run_related_while {R : S → T → Prop} {G : T → Prop} {P : Q → Prop} {view : S → V}
    {view' : T → V} {perform : Q → Attempt S Unit} {perform' : Q → Attempt T Unit}
    (hview : ∀ s t, R s t → view s = view' t)
    (hback : ∀ q t, G ((perform' q).runWith t).2 → G t)
    (hperform : ∀ q s t, P q → R s t → G ((perform' q).runWith t).2 →
      ((perform q).runWith s).1 = ((perform' q).runWith t).1 ∧
        R ((perform q).runWith s).2 ((perform' q).runWith t).2)
    {p : Program V Q α} (hp : p.Requests P) {s : S} {t : T} (h : R s t)
    (hend : G (p.run view' perform' t).2) :
    (p.run view perform s).1 = (p.run view' perform' t).1 ∧
      R (p.run view perform s).2 (p.run view' perform' t).2 := by
  induction p generalizing s t with
  | done a => exact ⟨rfl, h⟩
  | look next ih =>
    rw [run, run, hview s t h]
    exact ih _ (hp _) h hend
  | ask q next ih =>
    obtain ⟨hanswer, hnext⟩ := hperform q s t hp.1 h (run_backwards hback _ hend)
    simp only [run]
    rw [hanswer]
    exact ih _ (hp.2 _) hnext hend

end Program

/-! ### Requests on a draft -/

/-- The request does not edit, or its edit is **recorded**. -/
def Request.IsRecorded : Request N A β → Prop
  | .change _ | .delete => False
  | _ => True

namespace Draft

variable (crumbs : List (Crumb N)) (d : Draft N A β)

/-- The draft with another node. -/
def replaced (node : N) : Draft N A β :=
  { d with
    here := { d.here with node, changed := true }
    given := some node
    supplied := d.supplied ++ [node] }

/-- The draft with the node deleted. -/
def removed : Draft N A β :=
  { d with here := { d.here with deleted := true } }

/-- The draft with other nodes beside the one of the position. -/
def beside (before after : List N) (node : N) : Draft N A β :=
  { d with before, after, supplied := d.supplied ++ [node] }

theorem runWith_replace (node : N) : (replace crumbs node).runWith d =
    if d.here.deleted then (.error (.changeOfDeleted (Crumb.place crumbs)), d)
    else (.ok (), d.replaced node) := by
  obtain ⟨⟨_, _, _, deleted, _, _, _, _, _⟩, _, _, _, _⟩ := d
  cases deleted <;> rfl

theorem runWith_remove : (remove crumbs).runWith d =
    if d.here.deleted then (.error (.deletedTwice (Crumb.place crumbs)), d)
    else if d.here.changed then (.error (.deleteOfChanged (Crumb.place crumbs)), d)
    else (.ok (), d.removed) := by
  obtain ⟨⟨_, _, changed, deleted, _, _, _, _, _⟩, _, _, _, _⟩ := d
  cases deleted <;> cases changed <;> rfl

theorem runWith_insertBefore (node : N) : (insertBefore crumbs node).runWith d =
    if d.here.location.isNone then (.error (.besideRootAt (Crumb.place crumbs)), d)
    else (.ok (), d.beside (d.before ++ [node]) d.after node) := by
  obtain ⟨⟨_, _, _, _, location, _, _, _, _⟩, _, _, _, _⟩ := d
  cases location <;> rfl

theorem runWith_insertAfter (node : N) : (insertAfter crumbs node).runWith d =
    if d.here.location.isNone then (.error (.besideRootAt (Crumb.place crumbs)), d)
    else (.ok (), d.beside d.before (d.after ++ [node]) node) := by
  obtain ⟨⟨_, _, _, _, location, _, _, _, _⟩, _, _, _, _⟩ := d
  cases location <;> rfl

theorem perform_supplied [DecidableEq κ] (q : Request N A β) :
    d.supplied <+: ((perform crumbs q).runWith d).2.supplied := by
  cases q with
  | setVar key value => exact List.prefix_rfl
  | setAccumulate accumulate => exact List.prefix_rfl
  | change node => exact List.prefix_rfl
  | delete => exact List.prefix_rfl
  | replace node =>
    rw [perform, runWith_replace]
    split
    · exact List.prefix_rfl
    · exact List.prefix_append _ _
  | remove =>
    rw [perform, runWith_remove]
    repeat' split
    all_goals exact List.prefix_rfl
  | insertBefore node =>
    rw [perform, runWith_insertBefore]
    split
    · exact List.prefix_rfl
    · exact List.prefix_append _ _
  | insertAfter node =>
    rw [perform, runWith_insertAfter]
    split
    · exact List.prefix_rfl
    · exact List.prefix_append _ _

/-- How a draft stands to the one that a callback started from. -/
structure Since (start d : Draft N A β) : Prop where
  keeps : start.here.Keeps d.here
  /-- Without a new node everything is as it was. -/
  still : d.given = none →
    d.here.node = start.here.node ∧ d.here.changed = start.here.changed
  /-- A node that was given is the one to go on with. -/
  last : ∀ node, d.given = some node →
    d.here.node = node ∧ d.here.changed = true ∧ node ∈ d.supplied
  /-- What is deleted stays deleted. -/
  gone : start.here.deleted = true → d.here.deleted = true
  /-- Nothing is put beside a root. -/
  alone : start.here.location = none → d.before = start.before ∧ d.after = start.after

theorem Since.refl (hgiven : d.given = none) : d.Since d where
  keeps := .refl _
  still := fun _ => ⟨rfl, rfl⟩
  last := fun node hnode => by simp [hgiven] at hnode
  gone := fun h => h
  alone := fun _ => ⟨rfl, rfl⟩

/-- The node to go on with is the one that was there, or was supplied. -/
theorem Since.node_mem {start d : Draft N A β} (h : start.Since d) :
    d.here.node = start.here.node ∨ d.here.node ∈ d.supplied := by
  cases hgiven : d.given with
  | none => exact .inl (h.still hgiven).1
  | some given =>
    obtain ⟨rfl, -, hmem⟩ := h.last given hgiven
    exact .inr hmem

/-- A node was put beside one that is no root. -/
theorem Since.beside {start d : Draft N A β} (h : start.Since d) (hsome : ¬d.here.location.isNone)
    (before after : List N) (node : N) : start.Since (d.beside before after node) where
  keeps := h.keeps
  still := h.still
  last := fun given hgiven => by
    obtain ⟨hnode, hchanged, hmem⟩ := h.last given hgiven
    exact ⟨hnode, hchanged, List.mem_append_left _ hmem⟩
  gone := h.gone
  alone := fun hnone => by
    rw [h.keeps.location, hnone] at hsome
    exact absurd rfl hsome

/-- One request. -/
theorem Since.perform [DecidableEq κ] {start d : Draft N A β} (h : start.Since d)
    (q : Request N A β) : start.Since ((perform crumbs q).runWith d).2 := by
  cases q with
  | setVar key value => exact { h with keeps := h.keeps.trans ⟨rfl, rfl, rfl, rfl⟩ }
  | setAccumulate accumulate => exact { h with keeps := h.keeps.trans ⟨rfl, rfl, rfl, rfl⟩ }
  | change node => exact h
  | delete => exact h
  | replace node =>
    rw [Draft.perform, runWith_replace]
    split
    · exact h
    · refine { keeps := h.keeps.trans ⟨rfl, rfl, rfl, rfl⟩, still := ?_, last := ?_, gone := h.gone,
               alone := h.alone }
      · exact fun hnone => absurd hnone (by simp [replaced])
      · rintro _ ⟨⟩
        exact ⟨rfl, rfl, by simp [replaced]⟩
  | remove =>
    rw [Draft.perform, runWith_remove]
    repeat' split
    · exact h
    · exact h
    · exact { h with keeps := h.keeps.trans ⟨rfl, rfl, rfl, rfl⟩, gone := fun _ => rfl }
  | insertBefore node =>
    rw [Draft.perform, runWith_insertBefore]
    split
    · exact h
    · exact h.beside ‹_› _ _ node
  | insertAfter node =>
    rw [Draft.perform, runWith_insertAfter]
    split
    · exact h
    · exact h.beside ‹_› _ _ node

/-- What is noted about a node, once it was called back for. -/
def note (met entered : N) (late : Bool) : Note N where
  met
  entered
  before := d.before
  after := d.after
  deleted := d.here.deleted
  given := if d.here.changed then some d.here.node else none
  late

end Draft

/-! ### Edits of a position -/

/-- In a list with one entry swapped, everything else was there before. -/
theorem mem_swapped {α : Type} {front rest : List α} (z : α) {w y : α}
    (hy : y ∈ front ++ w :: rest) : y = w ∨ y ∈ front ++ z :: rest := by
  rcases List.mem_append.mp hy with hy | hy
  · exact .inr (List.mem_append_left _ hy)
  · rcases List.mem_cons.mp hy with rfl | hy
    · exact .inl rfl
    · exact .inr (List.mem_append_right _ (List.mem_cons_of_mem _ hy))

namespace Note

variable {note note' : Note N} {crumbs : List (Crumb N)} {own : List (Zipper N)}

/-- Only what the edits carry matters. -/
theorem Owns.of_carried (h : note.Owns crumbs own)
    (hsame : ∀ edit, note'.carried edit = note.carried edit) : note'.Owns crumbs own :=
  ⟨h.here, fun edit => (h.carried edit).trans (hsame edit).symm⟩

/-- One more edit. -/
theorem Owns.snoc (h : note.Owns crumbs own) {z : Zipper N} (hz : z.crumbs = crumbs)
    (hcarried : ∀ edit, note'.carried edit =
      note.carried edit ++ if z.edit = edit then [z.node] else []) :
    note'.Owns crumbs (own ++ [z]) := by
  refine ⟨fun y hy => ?_, fun edit => ?_⟩
  · rcases List.mem_append.mp hy with hy | hy
    · exact h.here y hy
    · rw [List.mem_singleton.mp hy, hz]
  · rw [List.filter_append, List.map_append, h.carried edit, hcarried edit]
    by_cases hedit : z.edit = edit <;> simp [hedit]

/-- The replacement carries another node. -/
theorem Owns.swap {front rest : List (Zipper N)} {z : Zipper N} {node : N}
    (h : note.Owns crumbs (front ++ z :: rest)) (hz : z.edit = .replace)
    (hcarried : ∀ edit, note'.carried edit =
      if edit = .replace then [node] else note.carried edit) :
    note'.Owns crumbs (front ++ z.withNode node :: rest) := by
  refine ⟨fun y hy => ?_, fun edit => ?_⟩
  · rcases mem_swapped z hy with rfl | hy
    · exact h.here z (by simp)
    · exact h.here y hy
  · rw [hcarried edit]
    by_cases hedit : edit = .replace
    · -- there is one replacement, so nothing in front of it and behind it replaces
      have hlen := h.length_filter .replace
      have hle : (note.carried .replace).length ≤ 1 := by
        rw [Note.carried]
        cases note.given <;> simp
      rw [← hlen, List.filter_append, List.filter_cons, if_pos (decide_eq_true hz),
        List.length_append, List.length_cons] at hle
      have hfront : front.filter (fun z => z.edit = .replace) = [] :=
        List.length_eq_zero_iff.mp (by omega)
      have hrest : rest.filter (fun z => z.edit = .replace) = [] :=
        List.length_eq_zero_iff.mp (by omega)
      have hswapped : (z.withNode node).edit = .replace := hz
      rw [hedit, List.filter_append, List.filter_cons, if_pos (decide_eq_true hswapped), hfront,
        hrest]
      rfl
    · have hother : ¬decide (z.edit = edit) = true := by
        rw [hz]
        simpa using Ne.symm hedit
      have hswapped : ¬decide ((z.withNode node).edit = edit) = true := hother
      rw [if_neg hedit, ← h.carried edit, List.filter_append, List.filter_append, List.filter_cons,
        if_neg hswapped, List.filter_cons, if_neg hother]

end Note

/-- The first edit that is accepted carries the new node. -/
theorem Batch.swapFirst_append {p : Zipper N → Bool} {front rest : List (Zipper N)} {z : Zipper N}
    (hfront : ∀ y ∈ front, ¬p y = true) (hz : p z = true) (node : N) :
    swapFirst p node (front ++ z :: rest) = some (front ++ z.withNode node :: rest) := by
  induction front with
  | nil => rw [List.nil_append, swapFirst, if_pos hz, List.nil_append]
  | cons y front ih =>
    rw [List.cons_append, swapFirst, if_neg (hfront y List.mem_cons_self),
      ih fun y' hy' => hfront y' (List.mem_cons_of_mem _ hy')]
    rfl

section Logged

variable [Identified N]

/-- The edits of a log carry nodes of different identities, all of them among the given ones. -/
structure Logged (roster : List (Identity N)) (log : List (Zipper N)) : Prop where
  distinct : (log.map fun z => identity z.node).Nodup
  known : ∀ z ∈ log, identity z.node ∈ roster

variable {roster roster' : List (Identity N)} {log front rest : List (Zipper N)} {z : Zipper N}

theorem Logged.mono (h : Logged roster log) (hsub : roster ⊆ roster') : Logged roster' log :=
  ⟨h.distinct, fun z hz => hsub (h.known z hz)⟩

/-- One more edit, whose node is not yet in the log. -/
theorem Logged.snoc (h : Logged roster log) (hz : ∀ y ∈ log, identity y.node ≠ identity z.node)
    (hsub : roster ⊆ roster') (hmem : identity z.node ∈ roster') : Logged roster' (log ++ [z]) := by
  refine ⟨?_, fun y hy => ?_⟩
  · rw [List.map_append, List.nodup_append]
    refine ⟨h.distinct, List.nodup_singleton _, ?_⟩
    intro i hi j hj
    obtain ⟨y, hy, rfl⟩ := List.mem_map.mp hi
    rw [List.mem_singleton.mp hj]
    exact hz y hy
  · rcases List.mem_append.mp hy with hy | hy
    · exact hsub (h.known y hy)
    · rw [List.mem_singleton.mp hy]
      exact hmem

/-- An edit carries another node, which is not yet in the log. -/
theorem Logged.swap (h : Logged roster (front ++ z :: rest)) {node : N}
    (hnode : identity node ∉ roster) (hsub : roster ⊆ roster') (hmem : identity node ∈ roster') :
    Logged roster' (front ++ z.withNode node :: rest) := by
  have hdistinct := h.distinct
  rw [List.map_append, List.map_cons, List.nodup_middle, List.nodup_cons, ← List.map_append]
    at hdistinct
  refine ⟨?_, fun y hy => ?_⟩
  · rw [List.map_append, List.map_cons, List.nodup_middle, List.nodup_cons, ← List.map_append]
    refine ⟨fun hin => hnode ?_, hdistinct.2⟩
    obtain ⟨y, hy, heq⟩ := List.mem_map.mp hin
    have hold : y ∈ front ++ z :: rest := by
      rcases List.mem_append.mp hy with hy | hy <;> simp [hy]
    exact heq ▸ h.known y hold
  · rcases mem_swapped z hy with rfl | hy
    · exact hmem
    · exact hsub (h.known y hy)

/-- The edit of a node is found in the log by its identity. -/
theorem Logged.swapFirst (h : Logged roster (front ++ z :: rest)) (node : N) :
    Batch.swapFirst (fun y => identity y.node = identity z.node) node (front ++ z :: rest) =
      some (front ++ z.withNode node :: rest) := by
  have hdistinct := h.distinct
  rw [List.map_append, List.map_cons, List.nodup_middle, List.nodup_cons] at hdistinct
  refine Batch.swapFirst_append (fun y hy => ?_) (by simp) node
  simpa using fun heq => hdistinct.1 (List.mem_append_left _ (List.mem_map.mpr ⟨y, hy, heq⟩))

end Logged

/-! ### Desks and drafts -/

section Booked

variable [Identified N]

/-- Something that stands in one of two lists is **swapped** for something else: there, and in what
holds the two lists and others. -/
theorem exists_swapped {α : Type} {z : α} (w : α) {first last : List α} (earlier between : List α)
    (hz : z ∈ first ++ last) :
    ∃ first' last' front rest front' rest',
      earlier ++ first ++ between ++ last = front ++ z :: rest ∧
      first ++ last = front' ++ z :: rest' ∧
      earlier ++ first' ++ between ++ last' = front ++ w :: rest ∧
      first' ++ last' = front' ++ w :: rest' := by
  rcases List.mem_append.mp hz with hz | hz
  · obtain ⟨front, rest, rfl⟩ := List.append_of_mem hz
    exact ⟨front ++ w :: rest, last, earlier ++ front, rest ++ between ++ last, front, rest ++ last,
      by simp⟩
  · obtain ⟨front, rest, rfl⟩ := List.append_of_mem hz
    exact ⟨first, front ++ w :: rest, earlier ++ first ++ between ++ front, rest, first ++ front,
      rest, by simp⟩

/-- A desk is **booked** like a draft: beside what was recorded `earlier` and what was recorded
`between` two callbacks, its record holds the edits that the draft stands for. The identities in
`roster` were known when the callback began, and those in `old` when the node was met. -/
structure Booked (crumbs : List (Crumb N)) (met : N) (old roster : List (Identity N))
    (earlier between : List (Zipper N)) (desk : Desk N A β) (d : Draft N A β) : Prop where
  here : desk.here = d.here
  kept : d.here.changed = false → d.here.node = met
  unchanged : d.here.deleted = true → d.here.changed = false
  old_subset : old ⊆ roster
  met_notMem : identity met ∉ old
  met_mem : identity met ∈ roster
  edits : ∃ first last, desk.edits = some (earlier ++ first ++ between ++ last) ∧
    (d.note met met false).Owns crumbs (first ++ last) ∧
    (∀ z ∈ first ++ last, identity z.node ∉ old) ∧
    Logged (roster ++ d.supplied.map identity) (earlier ++ first ++ between ++ last) ∧
    (d.here.deleted = false →
      ∀ z ∈ earlier ++ first ++ between ++ last, identity z.node ≠ identity met)

variable {crumbs : List (Crumb N)} {met : N} {old roster : List (Identity N)}
  {earlier between own : List (Zipper N)} {desk : Desk N A β} {d e : Draft N A β}

theorem fresh_of_nodup {supplied : List N} {node : N}
    (h : (roster ++ (supplied ++ [node]).map identity).Nodup) :
    identity node ∉ roster ++ supplied.map identity := by
  rw [List.map_append, ← List.append_assoc] at h
  exact fun hmem => (List.nodup_append.mp h).2.2 _ hmem _ (by simp) rfl

namespace Booked

/-- A request that edits nothing. -/
theorem same (h : Booked crumbs met old roster earlier between desk d) {here : Facts N A β}
    (hnode : here.node = d.here.node) (hchanged : here.changed = d.here.changed)
    (hdeleted : here.deleted = d.here.deleted) :
    Booked crumbs met old roster earlier between { desk with here } { d with here } := by
  obtain ⟨first, last, hedits, howns, hnew, hlogged, hmet⟩ := h.edits
  refine ⟨rfl, ?_, ?_, h.old_subset, h.met_notMem, h.met_mem, first, last, hedits, ?_,
    hnew, hlogged, ?_⟩
  · rw [hchanged, hnode]
    exact h.kept
  · rw [hchanged, hdeleted]
    exact h.unchanged
  · rw [Draft.note, hnode, hchanged, hdeleted]
    exact howns
  · rw [hdeleted]
    exact hmet

/-- A new edit. -/
theorem record (h : Booked crumbs met old roster earlier between desk d) {node : N} {edit : Edit}
    (hkept : e.here.changed = false → e.here.node = met)
    (hunchanged : e.here.deleted = true → e.here.changed = false)
    (hcarried : ∀ kind, (e.note met met false).carried kind =
      (d.note met met false).carried kind ++ if edit = kind then [node] else [])
    (hgrows : d.supplied ⊆ e.supplied)
    (hknown : identity node ∈ roster ++ e.supplied.map identity) (hold : identity node ∉ old)
    (hfresh : ∀ log, desk.edits = some log → ∀ z ∈ log, identity z.node ≠ identity node)
    (hmet : e.here.deleted = false → d.here.deleted = false ∧ identity node ≠ identity met) :
    Booked crumbs met old roster earlier between
      (Desk.record crumbs { desk with here := e.here } node edit) e := by
  obtain ⟨first, last, hedits, howns, hnew, hlogged, hother⟩ := h.edits
  refine ⟨rfl, hkept, hunchanged, h.old_subset, h.met_notMem, h.met_mem, first,
    last ++ [⟨node, crumbs, edit⟩], ?_, ?_, ?_, ?_, ?_⟩
  · simp only [Desk.record, hedits, Option.map_some, List.append_assoc]
  · rw [← List.append_assoc]
    exact howns.snoc rfl hcarried
  · intro z hz
    rw [← List.append_assoc] at hz
    rcases List.mem_append.mp hz with hz | hz
    · exact hnew z hz
    · rw [List.mem_singleton.mp hz]
      exact hold
  · rw [← List.append_assoc]
    refine hlogged.snoc (hfresh _ hedits) ?_ hknown
    exact List.append_subset.mpr ⟨List.subset_append_left _ _,
      List.subset_append_of_subset_right _ (List.map_subset _ hgrows)⟩
  · intro hkept z hz
    obtain ⟨hbefore, hne⟩ := hmet hkept
    rw [← List.append_assoc] at hz
    rcases List.mem_append.mp hz with hz | hz
    · exact hother hbefore z hz
    · rw [List.mem_singleton.mp hz]
      exact hne

omit [Identified N] in
/-- The edit of a replaced node is in the record. -/
theorem exists_replacement (howns : (d.note met met false).Owns crumbs own)
    (hchanged : d.here.changed = true) :
    ∃ z ∈ own, z.edit = .replace ∧ z.node = d.here.node := by
  have hgiven := howns.carried .replace
  rw [Note.carried, Draft.note, if_pos hchanged] at hgiven
  have hin : d.here.node ∈ (own.filter fun z => z.edit = .replace).map Zipper.node := by
    rw [hgiven]
    exact List.mem_singleton_self _
  obtain ⟨z, hz, hnode⟩ := List.mem_map.mp hin
  obtain ⟨hz, hedit⟩ := List.mem_filter.mp hz
  exact ⟨z, hz, of_decide_eq_true hedit, hnode⟩

/-- The edit of a node that was replaced before is **amended**, wherever it stands in the record. -/
theorem amend (h : Booked crumbs met old roster earlier between desk d)
    (hchanged : d.here.changed = true) {node : N}
    (hfresh : (roster ++ (d.supplied ++ [node]).map identity).Nodup) :
    ∃ log, desk.edits.bind (Batch.swapFirst (identity ·.node = identity d.here.node) node) =
        some log ∧
      Booked crumbs met old roster earlier between
        { here := (d.replaced node).here, edits := some log } (d.replaced node) := by
  obtain ⟨first, last, hedits, howns, hnewer, hlogged, hother⟩ := h.edits
  have hnew := fresh_of_nodup hfresh
  have hkept : d.here.deleted = false := by
    rw [Bool.eq_false_iff]
    intro hdeleted
    exact absurd hchanged (by simp [h.unchanged hdeleted])
  have hcarried : ∀ kind, ((d.replaced node).note met met false).carried kind =
      if kind = .replace then [node] else (d.note met met false).carried kind := fun kind => by
    cases kind <;> rfl
  obtain ⟨z, hz, hedit, hnode⟩ := exists_replacement howns hchanged
  -- the edit stands in the record and among the edits of the position, and is swapped in both
  obtain ⟨first', last', front, rest, front', rest', hlog, hown, hlog', hown'⟩ :=
    exists_swapped (z.withNode node) earlier between hz
  have hold := hother hkept
  rw [hlog] at hedits hlogged hold
  rw [hown] at howns hnewer
  refine ⟨front ++ z.withNode node :: rest, ?_, rfl, fun hno => ?_, fun hdeleted => ?_,
    h.old_subset, h.met_notMem, h.met_mem, first', last', by rw [hlog'], ?_, fun y hy => ?_, ?_,
    fun _ y hy => ?_⟩
  · rw [hedits, Option.bind_some, ← hnode]
    exact hlogged.swapFirst node
  · exact absurd hno (by simp [Draft.replaced])
  · exact absurd hdeleted (by simp [Draft.replaced, hkept])
  · rw [hown']
    exact howns.swap hedit hcarried
  · rw [hown'] at hy
    rcases mem_swapped z hy with rfl | hy
    · exact fun hmem => hnew (List.mem_append_left _ (h.old_subset hmem))
    · exact hnewer y hy
  · rw [hlog']
    refine hlogged.swap hnew ?_ (by simp [Draft.replaced])
    rw [Draft.replaced, List.map_append, ← List.append_assoc]
    exact List.subset_append_left _ _
  · rw [hlog'] at hy
    rcases mem_swapped z hy with rfl | hy
    · exact fun heq => hnew (heq ▸ List.mem_append_left _ h.met_mem)
    · exact hold y hy

/-- The edits of a log carry nodes that were known before one that is supplied now. -/
theorem ne_of_fresh (h : Booked crumbs met old roster earlier between desk d) {node : N}
    (hfresh : identity node ∉ roster ++ d.supplied.map identity) (log : List (Zipper N))
    (hlog : desk.edits = some log) (z : Zipper N) (hz : z ∈ log) :
    identity z.node ≠ identity node := by
  obtain ⟨first, last, hedits, -, -, hlogged, -⟩ := h.edits
  rw [hedits, Option.some.injEq] at hlog
  subst hlog
  exact fun heq => hfresh (heq ▸ hlogged.known z hz)

theorem notMem_old (h : Booked crumbs met old roster earlier between desk d) {node : N}
    (hfresh : identity node ∉ roster ++ d.supplied.map identity) :
    identity node ∉ old := fun hmem =>
  hfresh (List.mem_append_left _ (h.old_subset hmem))

theorem recording (h : Booked crumbs met old roster earlier between desk d) :
    ¬desk.edits.isNone = true := by
  obtain ⟨first, last, hedits, -⟩ := h.edits
  simp [hedits]

section Requests

variable (h : Booked crumbs met old roster earlier between desk d)

include h

theorem replace {node : N} (hkept : ¬d.here.deleted = true)
    (hfresh : (roster ++ (d.supplied ++ [node]).map identity).Nodup) :
    ((Desk.replace crumbs node).runWith desk).1 = .ok () ∧
      Booked crumbs met old roster earlier between ((Desk.replace crumbs node).runWith desk).2
        (d.replaced node) := by
  have hnew := fresh_of_nodup hfresh
  rw [Desk.runWith_replace, if_neg h.recording, h.here, if_neg hkept]
  by_cases hchanged : d.here.changed = true
  · obtain ⟨log, hlog, hbooked⟩ := h.amend hchanged hfresh
    rw [if_pos hchanged, Desk.runWith_amend]
    simp only [hlog]
    exact ⟨trivial, hbooked⟩
  · rw [if_neg hchanged]
    have hbooked : Booked crumbs met old roster earlier between
        (Desk.record crumbs { desk with here := (d.replaced node).here } node .replace)
        (d.replaced node) := by
      refine h.record ?_ ?_ (fun kind => ?_) (List.subset_append_left _ _) ?_ (h.notMem_old hnew)
        (h.ne_of_fresh hnew) ?_
      · exact fun hno => absurd hno (by simp [Draft.replaced])
      · exact fun hdeleted => absurd hdeleted hkept
      · have hnone : (d.note met met false).carried .replace = [] := by
          rw [Note.carried, Draft.note, if_neg hchanged, Option.toList_none]
        cases kind with
        | replace => rw [hnone]; rfl
        | insertBefore | insertAfter | delete => exact (List.append_nil _).symm
      · simp [Draft.replaced]
      · intro hdeleted
        exact ⟨hdeleted, fun heq => hnew (heq ▸ List.mem_append_left _ h.met_mem)⟩
    exact ⟨rfl, hbooked⟩

theorem remove (hkept : ¬d.here.deleted = true) (hchanged : ¬d.here.changed = true) :
    ((Desk.remove crumbs).runWith desk).1 = .ok () ∧
      Booked crumbs met old roster earlier between ((Desk.remove crumbs).runWith desk).2
        d.removed := by
  have hnode : d.here.node = met := h.kept (Bool.eq_false_iff.mpr hchanged)
  rw [Desk.runWith_remove, if_neg h.recording, h.here, if_neg hkept, if_neg hchanged]
  have hbooked : Booked crumbs met old roster earlier between
      (Desk.record crumbs { desk with here := d.removed.here } met .delete) d.removed := by
    refine h.record h.kept (fun _ => Bool.eq_false_iff.mpr hchanged) (fun kind => ?_)
      (fun _ hx => hx) (List.mem_append_left _ h.met_mem) h.met_notMem ?_
      fun hno => absurd hno (by simp [Draft.removed])
    · have hnone : (d.note met met false).carried .delete = [] := if_neg hkept
      cases kind with
      | delete => rw [hnone]; rfl
      | insertBefore | insertAfter | replace => exact (List.append_nil _).symm
    · intro log hlog z hz
      obtain ⟨first, last, hedits, -, -, -, hother⟩ := h.edits
      rw [hedits, Option.some.injEq] at hlog
      subst hlog
      exact hother (Bool.eq_false_iff.mpr hkept) z hz
  rw [hnode]
  exact ⟨rfl, hbooked⟩

/-- A node is put beside the one of the position. -/
theorem insertBeside {node : N} {edit : Edit} {before after : List N}
    (hsome : ¬d.here.location.isNone = true)
    (hcarried : ∀ kind, ((d.beside before after node).note met met false).carried kind =
      (d.note met met false).carried kind ++ if edit = kind then [node] else [])
    (hfresh : (roster ++ (d.supplied ++ [node]).map identity).Nodup) :
    ((Desk.insertBeside crumbs node edit).runWith desk).1 = .ok () ∧
      Booked crumbs met old roster earlier between
        ((Desk.insertBeside crumbs node edit).runWith desk).2 (d.beside before after node) := by
  have hnew := fresh_of_nodup hfresh
  have hbooked : Booked crumbs met old roster earlier between
      (Desk.record crumbs { desk with here := (d.beside before after node).here } node edit)
      (d.beside before after node) := by
    refine h.record h.kept h.unchanged hcarried (List.subset_append_left _ _) ?_
      (h.notMem_old hnew) (h.ne_of_fresh hnew) fun hkept =>
        ⟨hkept, fun heq => hnew (heq ▸ List.mem_append_left _ h.met_mem)⟩
    simp [Draft.beside]
  rw [Desk.runWith_insertBeside, if_neg h.recording, h.here, if_neg hsome]
  have hhere : (d.beside before after node).here = desk.here := h.here.symm
  rw [hhere] at hbooked
  exact ⟨rfl, hbooked⟩

/-- **Every request** has the same answer on a desk and on the draft it is booked like, and leaves
it booked like the draft, if the node that is supplied is new. -/
theorem perform [DecidableEq κ] {q : Request N A β} (hq : q.IsRecorded)
    (hfresh : (roster ++ ((Draft.perform crumbs q).runWith d).2.supplied.map identity).Nodup) :
    ((Desk.perform crumbs q).runWith desk).1 = ((Draft.perform crumbs q).runWith d).1 ∧
      Booked crumbs met old roster earlier between ((Desk.perform crumbs q).runWith desk).2
        ((Draft.perform crumbs q).runWith d).2 := by
  have hsome := h.recording
  cases q with
  | setVar key value =>
    obtain ⟨here, edits⟩ := desk
    obtain rfl : here = d.here := h.here
    exact ⟨rfl, h.same rfl rfl rfl⟩
  | setAccumulate accumulate =>
    obtain ⟨here, edits⟩ := desk
    obtain rfl : here = d.here := h.here
    exact ⟨rfl, h.same rfl rfl rfl⟩
  | change node => exact hq.elim
  | delete => exact hq.elim
  | replace node =>
    rw [Draft.perform, Draft.runWith_replace] at hfresh ⊢
    by_cases hdeleted : d.here.deleted = true
    · rw [if_pos hdeleted, Desk.perform, Desk.runWith_replace, if_neg hsome, h.here,
        if_pos hdeleted]
      exact ⟨rfl, h⟩
    · rw [if_neg hdeleted] at hfresh ⊢
      exact h.replace hdeleted hfresh
  | remove =>
    rw [Draft.perform, Draft.runWith_remove]
    by_cases hdeleted : d.here.deleted = true
    · rw [if_pos hdeleted, Desk.perform, Desk.runWith_remove, if_neg hsome, h.here, if_pos hdeleted]
      exact ⟨rfl, h⟩
    · by_cases hchanged : d.here.changed = true
      · rw [if_neg hdeleted, if_pos hchanged, Desk.perform, Desk.runWith_remove,
          if_neg hsome, h.here, if_neg hdeleted, if_pos hchanged]
        exact ⟨rfl, h⟩
      · rw [if_neg hdeleted, if_neg hchanged]
        exact h.remove hdeleted hchanged
  | insertBefore node =>
    rw [Draft.perform, Draft.runWith_insertBefore] at hfresh ⊢
    by_cases hroot : d.here.location.isNone = true
    · rw [if_pos hroot, Desk.perform, Desk.runWith_insertBeside, if_neg hsome, h.here, if_pos hroot]
      exact ⟨rfl, h⟩
    · rw [if_neg hroot] at hfresh ⊢
      refine h.insertBeside hroot (fun kind => ?_) hfresh
      cases kind with
      | insertBefore => rfl
      | insertAfter | replace | delete => exact (List.append_nil _).symm
  | insertAfter node =>
    rw [Draft.perform, Draft.runWith_insertAfter] at hfresh ⊢
    by_cases hroot : d.here.location.isNone = true
    · rw [if_pos hroot, Desk.perform, Desk.runWith_insertBeside, if_neg hsome, h.here, if_pos hroot]
      exact ⟨rfl, h⟩
    · rw [if_neg hroot] at hfresh ⊢
      refine h.insertBeside hroot (fun kind => ?_) hfresh
      cases kind with
      | insertAfter => rfl
      | insertBefore | replace | delete => exact (List.append_nil _).symm

end Requests

end Booked

end Booked

/-! ### Callbacks -/

namespace Traversal

variable [Identified N] [DecidableEq κ] {rootVars : Vars β} {visitor : SightVisitor σ N A β}
  {phase : Phase} {above : List (Facts N A β)} {below : Option (Children (Facts N A β))}
  {d e : Draft N A β} {p after : Progress σ N A} {control : Control}

/-- What a walk has come to, with the edits that were recorded. -/
def Progress.course (p : Progress σ N A) (log : List (Zipper N)) : Course σ N A where
  own := p.own
  visited := p.visited
  accumulate := p.accumulate
  edits := some log

/-- The draft that a callback starts from. -/
def calledOn (d : Draft N A β) (phase : Phase) (accumulate : A) : Draft N A β :=
  { d with
    here := { d.here with current := accumulate, next := none, phase := some phase }
    given := none
    supplied := [] }

/-- What a callback that succeeds comes to. -/
theorem revise_ok
    (h : revise rootVars visitor phase above below d p = (.ok (control, e), after)) :
    ∃ own, (visitor.on phase).runOn (fun d => ⟨d.here, above, below, rootVars, p.visited⟩)
        (Draft.perform (Facts.crumbs d.here.location above)) p.own
        (calledOn d phase p.accumulate) = ((.ok control, own), e) ∧
      after = { p with
        own, accumulate := e.here.handedOn, supplied := p.supplied ++ e.supplied } := by
  rw [revise] at h
  split at h
  · rename_i control' own d' hrun
    simp only [Prod.mk.injEq, Except.ok.injEq] at h
    obtain ⟨⟨rfl, rfl⟩, rfl⟩ := h
    exact ⟨own, hrun, rfl⟩
  · simp at h

/-- How the draft after a callback stands to the one before. -/
theorem revise_since
    (h : revise rootVars visitor phase above below d p = (.ok (control, e), after)) :
    (calledOn d phase p.accumulate).Since e := by
  obtain ⟨own, hrun, -⟩ := revise_ok h
  let crumbs := Facts.crumbs d.here.location above
  have hstep : ∀ (q : Request N A β) (x : Draft N A β), True →
      (calledOn d phase p.accumulate).Since x →
        (calledOn d phase p.accumulate).Since ((Draft.perform crumbs q).runWith x).2 :=
    fun q _ _ hx => hx.perform crumbs q
  have hsince := Program.run_invariant
    (fun x : Draft N A β => (⟨x.here, above, below, rootVars, p.visited⟩ : Sight N A β)) hstep
    (Program.Requests.of_true (visitor.on phase p.own)) (Draft.Since.refl _ rfl)
  have hend : Program.run _ (Draft.perform crumbs) (visitor.on phase p.own)
    (calledOn d phase p.accumulate) = ((.ok control, own), e) := hrun
  rwa [hend] at hsince

/-- **A callback** comes to the same on a desk that is booked like its draft. -/
theorem revise_consult
    (h : revise rootVars visitor phase above below d p = (.ok (control, e), after))
    (hvisitor : visitor.Requests Request.IsRecorded) {met : N} {old roster : List (Identity N)}
    {earlier between log : List (Zipper N)}
    (hbooked : Booked (Facts.crumbs d.here.location above) met old roster earlier between
      ⟨(calledOn d phase p.accumulate).here, some log⟩ (calledOn d phase p.accumulate))
    (hfresh : (roster ++ e.supplied.map identity).Nodup) :
    ∃ log', (consult rootVars visitor phase above below d.here).runWith (p.course log) =
        (.ok (control, e.here), after.course log') ∧
      Booked (Facts.crumbs d.here.location above) met old roster earlier between
        ⟨e.here, some log'⟩ e ∧
      (calledOn d phase p.accumulate).Since e := by
  obtain ⟨own, hrun, rfl⟩ := revise_ok h
  let crumbs := Facts.crumbs d.here.location above
  let sight := fun here : Facts N A β =>
    { here, above, below, rootVars, visited := p.visited : Sight N A β }
  have hview : ∀ (desk : Desk N A β) (d : Draft N A β),
      Booked crumbs met old roster earlier between desk d → sight desk.here = sight d.here :=
    fun desk d h => congrArg sight h.here
  have hback : ∀ (q : Request N A β) (d : Draft N A β),
      (roster ++ ((Draft.perform crumbs q).runWith d).2.supplied.map identity).Nodup →
        (roster ++ d.supplied.map identity).Nodup := by
    intro q d hnodup
    refine hnodup.sublist (List.Sublist.append_left ?_ roster)
    exact ((Draft.perform_supplied crumbs d q).sublist).map identity
  have hend : Program.run (fun d : Draft N A β => sight d.here) (Draft.perform crumbs)
      (visitor.on phase p.own) (calledOn d phase p.accumulate) = ((.ok control, own), e) := hrun
  -- that no identity is known twice holds at the end, and so it held at every request before
  have hrelated := Program.run_related_while
    (G := fun d : Draft N A β => (roster ++ d.supplied.map identity).Nodup) hview hback
    (fun q desk d hq h hnodup => h.perform hq hnodup) (hvisitor phase p.own) hbooked
    (by rw [hend]; exact hfresh)
  rw [hend] at hrelated
  generalize hdesk : Program.run (fun desk : Desk N A β => sight desk.here) (Desk.perform crumbs)
    (visitor.on phase p.own) ⟨(calledOn d phase p.accumulate).here, some log⟩ = result at hrelated
  obtain ⟨out, desk⟩ := result
  obtain ⟨rfl, hafter⟩ : out = (.ok control, own) ∧
    Booked crumbs met old roster earlier between desk e := hrelated
  obtain ⟨first, last, hedits, -⟩ := hafter.edits
  refine ⟨earlier ++ first ++ between ++ last, ?_, ?_, ?_⟩
  · have hconsult :
        (consult rootVars visitor phase above below d.here).runWith (p.course log) = _ :=
      consult_of_ok hdesk
    rw [hconsult, hafter.here, hedits]
    rfl
  · rw [← hafter.here, ← hedits]
    exact hafter
  · exact revise_since h

end Traversal

end Arborist
