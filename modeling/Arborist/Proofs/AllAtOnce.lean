import Arborist.Proofs.Rounds

/-!
# A batch makes all edits at once

The main result on batches: applying one gives the tree that `simultaneous` sketches
(`toRoot_simultaneous`). It needs edits that are apart from each other: `toRoot_sharing` has two
replacements that share a child, and editing it below both of them edits it below one.
-/

namespace Arborist

variable {σ N : Type} [Identified N]

namespace Batch

variable {adapter : Adapter σ N} {b : Batch N}

/-- Without edits the tree stays. -/
theorem simultaneous_of_nil (adapter : Adapter σ N) (hnil : b.zippers = []) :
    b.simultaneous adapter = some (.keep b.root) := by
  simp [simultaneous, hnil, height, carried, edited, standing]

theorem toRoot_of_nil (adapter : Adapter σ N) (hnil : b.zippers = []) (s : σ) :
    (b.toRoot adapter).runWith s = (.ok (some b.root), s) := by
  simp [Batch.toRoot, hnil, height, Batch.reconcile]

/-- **A batch makes all edits at once**: it is applied without failure, and the result shows the tree
in which every position was edited by itself. -/
theorem toRoot_simultaneous (hb : b.Coherent adapter) (s : σ) :
    ∃ result s', (b.toRoot adapter).runWith s = (.ok result, s') ∧
      Option.Rel (Sketch.Shows adapter) (b.simultaneous adapter) result := by
  by_cases hnil : b.zippers = []
  · refine ⟨some b.root, s, toRoot_of_nil adapter hnil s, ?_⟩
    rw [simultaneous_of_nil adapter hnil]
    exact .some (.keep b.root)
  · exact hb.toRoot_of_ne_nil hnil s

end Batch

/-! ### Batches on tables -/

namespace Children

variable {M : Type}

/-- Children under a single role have one list. -/
theorem eq_of_get?_single {c : Children M} {r s : Role} {known list : List M}
    (hc : c = ⟨[(s, known)]⟩) (h : c.get? r = some list) : list = known := by
  subst hc
  simp only [get?, lookup] at h
  split at h
  · exact (Option.some.inj h).symm
  · cases h

/-- Two children under a single role. -/
theorem eq_of_at?_pair {s : Role} {m n child : M} {l : Location}
    (h : (⟨[(s, [m, n])]⟩ : Children M).at? l = some child) :
    (l = ⟨s, 0⟩ ∧ child = m) ∨ (l = ⟨s, 1⟩ ∧ child = n) := by
  obtain ⟨role, index⟩ := l
  simp only [at?, get?, lookup] at h
  split at h
  · rcases index with _ | _ | index
    · simp_all
    · simp_all
    · simp at h
  · simp at h

end Children

namespace Graph

@[simp] theorem identity_listed_inj (a b : String) :
    identity (Node.listed a) = identity (Node.listed b) ↔ a = b :=
  Tag.listed.injEq a b ▸ Iff.rfl

/-- Rebuilding never gives a node of the table. -/
theorem Table.rebuild_ne_listed {σ : Type} [Supply σ] (t : Table) (node : Node)
    (c : Children Node) (s s' : σ) (name : String) :
    (t.rebuild node c).runWith s ≠ (.ok (.listed name), s') := by
  intro h
  rw [Table.rebuild] at h
  split at h
  · simp at h
  · cases hall : replaceAll node.label (t.children node) c.groups with
    | error e =>
      rw [hall, Attempt.ofExcept, Attempt.runWith_bind_error (Attempt.runWith_throw e s)] at h
      simp at h
    | ok c' =>
      rw [hall, Attempt.ofExcept, Attempt.runWith_bind_ok (Attempt.runWith_pure c' s)] at h
      cases h

theorem not_shows_listed {σ : Type} [Supply σ] {t : Table} {node : Node}
    {sketches : Children (Sketch Node)} {name : String}
    (h : (Sketch.rebuild node sketches).Shows (t.adapter : Adapter σ Node) (.listed name)) :
    False := by
  cases h with
  | rebuild rebuilt _ _ =>
    obtain ⟨⟨s, s', hrun⟩, -⟩ := rebuilt
    exact t.rebuild_ne_listed node _ s s' name hrun

/-- The crumb of a listed node with one role. -/
def below (name : String) (index : Nat) : Crumb Node :=
  ⟨.listed name, .named "x", index⟩

end Graph

namespace Batch

open Arborist.Graph

theorem exists_suffix {α : Type} {a : α} {l : List α} (h : a ∈ l) : ∃ rest, a :: rest <:+ l := by
  obtain ⟨front, rest, rfl⟩ := List.append_of_mem h
  exact ⟨rest, front, rfl⟩

/-- Two levels below a root, and a node to replace one of its children by. -/
def sampleTable : Table where
  entries := [("root", ⟨[(.named "x", ["a", "b"])]⟩), ("a", ⟨[(.named "x", ["a1", "a2"])]⟩),
    ("w", ⟨[(.named "x", ["w1"])]⟩)]

/-- Edits of every kind, and a replacement that is itself edited. -/
def sampleBatch : Batch Node where
  root := .listed "root"
  zippers := [
    ⟨.listed "n1", [below "a" 0, below "root" 0], .insertBefore⟩,
    ⟨.listed "a2", [below "a" 1, below "root" 0], .delete⟩,
    ⟨.listed "n2", [below "root" 0], .insertAfter⟩,
    ⟨.listed "w", [below "root" 1], .replace⟩,
    ⟨.listed "n3", [below "w" 0, below "root" 1], .replace⟩]

/-- The nodes that the edits of the sample run through, with their positions. -/
theorem sampleBatch_stations {z : Zipper Node} (hz : z ∈ sampleBatch.zippers) {c : Crumb Node}
    {above : List (Crumb Node)} (hc : c :: above <:+ z.crumbs) :
    (c.node, above) ∈ [(Node.listed "root", []), (.listed "a", [below "root" 0]),
      (.listed "w", [below "root" 1])] := by
  simp only [sampleBatch, List.mem_cons, List.not_mem_nil, or_false] at hz
  rcases hz with rfl | rfl | rfl | rfl | rfl <;>
    simp only [List.suffix_cons_iff, List.suffix_nil, List.cons.injEq, reduceCtorEq,
      or_false] at hc <;>
    grind [below]

theorem sampleBatch_children {z : Zipper Node} (hz : z ∈ sampleBatch.zippers) {c : Crumb Node}
    (hc : c ∈ z.crumbs) : ∃ list, sampleTable.children c.node = ⟨[(.named "x", list)]⟩ ∧
      list.length ≤ 2 ∧ c.node.label ∉ sampleTable.rejected := by
  obtain ⟨above, hsuffix⟩ := exists_suffix hc
  have hstation := sampleBatch_stations hz hsuffix
  simp only [List.mem_cons, List.not_mem_nil, or_false, Prod.mk.injEq] at hstation
  rcases hstation with ⟨hc, -⟩ | ⟨hc, -⟩ | ⟨hc, -⟩ <;> rw [hc] <;>
    exact ⟨_, rfl, by decide, List.not_mem_nil⟩

theorem sample_coherent : Coherent (sampleTable.adapter : Adapter Nat Node) sampleBatch where
  reached := by
    have ha : Reaches (sampleTable.adapter : Adapter Nat Node) sampleBatch [below "root" 0]
        (.listed "a") := .down .root rfl
    have hb : Reaches (sampleTable.adapter : Adapter Nat Node) sampleBatch [below "root" 1]
        (.listed "b") := .down .root rfl
    have hw : ⟨.listed "w", [below "root" 1], .replace⟩ ∈ sampleBatch.zippers := by
      simp [sampleBatch]
    simp only [sampleBatch, List.forall_mem_cons]
    exact ⟨⟨_, .down ha rfl⟩, ⟨_, .down ha rfl⟩, ⟨_, ha⟩, ⟨_, hb⟩,
      ⟨_, .through hb hw rfl rfl rfl⟩, by simp⟩
  once := by simp [sampleBatch, Zipper.way, below, Edit.inserts]
  fresh := by simp [sampleBatch, below, List.suffix_cons_iff]
  rootAlone := by simp [sampleBatch]
  rootDeleted := by simp [sampleBatch]
  sided := by simp [sampleBatch, below, List.suffix_cons_iff]
  lawful := by
    intro z hz c hc
    obtain ⟨list, hlist, -, hlabel⟩ := sampleBatch_children hz hc
    exact Table.lawfulAt _ _ (by simp [hlist, Children.roles]) hlabel
  fits := by
    intro z hz c hc r list hr
    obtain ⟨known, hlist, hlen, -⟩ := sampleBatch_children hz hc
    rw [Children.eq_of_get?_single hlist hr]
    have hcount : sampleBatch.zippers.length = 5 := rfl
    omega
  apart := by
    intro y hy z hz c d above beyond hc hd hlen hid
    have hc := sampleBatch_stations hy hc
    have hd := sampleBatch_stations hz hd
    simp only [List.mem_cons, List.not_mem_nil, or_false, Prod.mk.injEq] at hc hd
    rcases hc with ⟨hc, rfl⟩ | ⟨hc, rfl⟩ | ⟨hc, rfl⟩ <;>
      rcases hd with ⟨hd, rfl⟩ | ⟨hd, rfl⟩ | ⟨hd, rfl⟩ <;> simp_all

theorem toRoot_simultaneous_sample :
    Coherent (sampleTable.adapter : Adapter Nat Node) sampleBatch ∧
      ∃ result s', (sampleBatch.toRoot (sampleTable.adapter : Adapter Nat Node)).runWith 0 =
          (.ok result, s') ∧
        Option.Rel (Sketch.Shows (sampleTable.adapter : Adapter Nat Node))
          (sampleBatch.simultaneous (sampleTable.adapter : Adapter Nat Node)) result :=
  ⟨sample_coherent, toRoot_simultaneous sample_coherent 0⟩

/-- Two nodes that share a child. -/
def sharingTable : Table where
  entries := [("root", ⟨[(.named "x", ["a", "b"])]⟩), ("v", ⟨[(.named "x", ["shared"])]⟩),
    ("w", ⟨[(.named "x", ["shared"])]⟩), ("shared", ⟨[(.named "x", ["leaf"])]⟩)]

/-- Both children of the root are replaced, and the child that the replacements share is edited
below each of them. -/
def sharingBatch : Batch Node where
  root := .listed "root"
  zippers := [
    ⟨.listed "v", [below "root" 0], .replace⟩,
    ⟨.listed "w", [below "root" 1], .replace⟩,
    ⟨.listed "m", [below "shared" 0, below "v" 0, below "root" 0], .replace⟩,
    ⟨.listed "n", [below "shared" 0, below "w" 0, below "root" 1], .replace⟩]

theorem sharingBatch_stations {z : Zipper Node} (hz : z ∈ sharingBatch.zippers) {c : Crumb Node}
    (hc : c ∈ z.crumbs) : ∃ list, sharingTable.children c.node = ⟨[(.named "x", list)]⟩ ∧
      list.length ≤ 2 ∧ c.node.label ∉ sharingTable.rejected := by
  simp only [sharingBatch, List.mem_cons, List.not_mem_nil, or_false] at hz
  rcases hz with rfl | rfl | rfl | rfl <;>
    simp only [List.mem_cons, List.not_mem_nil, or_false] at hc <;>
    rcases hc with rfl | rfl | rfl <;> exact ⟨_, rfl, by decide, List.not_mem_nil⟩

theorem sharing_admissible :
    Admissible (sharingTable.adapter : Adapter Nat Node) sharingBatch where
  reached := by
    have ha : Reaches (sharingTable.adapter : Adapter Nat Node) sharingBatch [below "root" 0]
        (.listed "a") := .down .root rfl
    have hb : Reaches (sharingTable.adapter : Adapter Nat Node) sharingBatch [below "root" 1]
        (.listed "b") := .down .root rfl
    have hv : ⟨.listed "v", [below "root" 0], .replace⟩ ∈ sharingBatch.zippers := by
      simp [sharingBatch]
    have hw : ⟨.listed "w", [below "root" 1], .replace⟩ ∈ sharingBatch.zippers := by
      simp [sharingBatch]
    simp only [sharingBatch, List.forall_mem_cons]
    exact ⟨⟨_, ha⟩, ⟨_, hb⟩, ⟨_, .down (.through ha hv rfl rfl rfl) rfl⟩,
      ⟨_, .down (.through hb hw rfl rfl rfl) rfl⟩, by simp⟩
  once := by simp [sharingBatch, Zipper.way, below, Edit.inserts]
  fresh := by simp [sharingBatch, below, List.suffix_cons_iff]
  rootAlone := by simp [sharingBatch]
  rootDeleted := by simp [sharingBatch]
  sided := by simp [sharingBatch, below, List.suffix_cons_iff]
  lawful := by
    intro z hz c hc
    obtain ⟨list, hlist, -, hlabel⟩ := sharingBatch_stations hz hc
    exact Table.lawfulAt _ _ (by simp [hlist, Children.roles]) hlabel
  fits := by
    intro z hz c hc r list hr
    obtain ⟨known, hlist, hlen, -⟩ := sharingBatch_stations hz hc
    rw [Children.eq_of_get?_single hlist hr]
    have hcount : sharingBatch.zippers.length = 4 := rfl
    omega

theorem sharingTable_positions {crumbs : List (Crumb Node)} {node : Node}
    (h : Reaches (sharingTable.adapter : Adapter Nat Node) (sharingBatch.withZippers []) crumbs
      node) :
    (crumbs, node) ∈ [([], Node.listed "root"), ([below "root" 0], .listed "a"),
      ([below "root" 1], .listed "b")] := by
  induction h with
  | root => simp [sharingBatch, withZippers]
  | @down crumbs node child l _ found ih =>
    simp only [List.mem_cons, List.not_mem_nil, or_false, Prod.mk.injEq] at ih
    rcases ih with ⟨rfl, rfl⟩ | ⟨rfl, rfl⟩ | ⟨rfl, rfl⟩
    · rcases Children.eq_of_at?_pair found with ⟨rfl, rfl⟩ | ⟨rfl, rfl⟩ <;> simp [below]
    · cases found
    · cases found
  | through _ mem => simp [withZippers] at mem

/-- What the edits of both replacements would give at once. -/
theorem simultaneous_sharing :
    sharingBatch.simultaneous (sharingTable.adapter : Adapter Nat Node) =
      some (.rebuild (.listed "root") ⟨[(.named "x", [
        .rebuild (.listed "v") ⟨[(.named "x",
          [.rebuild (.listed "shared") ⟨[(.named "x", [.keep (.listed "m")])]⟩])]⟩,
        .rebuild (.listed "w") ⟨[(.named "x",
          [.rebuild (.listed "shared") ⟨[(.named "x", [.keep (.listed "n")])]⟩])]⟩])]⟩) :=
  rfl

/-- **Sharing below replacements** is not undone: all is admissible, no node of the tree is at two
positions and everything that is put into it is new, but the child that two replacements share is
edited once, and below the first of them only. -/
theorem toRoot_sharing :
    Admissible (sharingTable.adapter : Adapter Nat Node) sharingBatch ∧
      (∀ xs ys m n,
        Reaches (sharingTable.adapter : Adapter Nat Node) (sharingBatch.withZippers []) xs m →
        Reaches (sharingTable.adapter : Adapter Nat Node) (sharingBatch.withZippers []) ys n →
        identity m = identity n → xs = ys) ∧
      (∀ z ∈ sharingBatch.zippers, ∀ xs m,
        Reaches (sharingTable.adapter : Adapter Nat Node) (sharingBatch.withZippers []) xs m →
        identity z.node ≠ identity m) ∧
      (sharingBatch.zippers.map (identity ·.node)).Nodup ∧
      ∃ result s', (sharingBatch.toRoot (sharingTable.adapter : Adapter Nat Node)).runWith 0 =
          (.ok result, s') ∧
        ¬Option.Rel (Sketch.Shows (sharingTable.adapter : Adapter Nat Node))
          (sharingBatch.simultaneous (sharingTable.adapter : Adapter Nat Node)) result := by
  refine ⟨sharing_admissible, ?_, ?_, by decide, _, _, rfl, ?_⟩
  · intro xs ys m n hm hn hid
    have hm := sharingTable_positions hm
    have hn := sharingTable_positions hn
    simp only [List.mem_cons, List.not_mem_nil, or_false, Prod.mk.injEq] at hm hn
    rcases hm with ⟨rfl, rfl⟩ | ⟨rfl, rfl⟩ | ⟨rfl, rfl⟩ <;>
      rcases hn with ⟨rfl, rfl⟩ | ⟨rfl, rfl⟩ | ⟨rfl, rfl⟩ <;> simp_all
  · intro z hz xs m hm
    have hm := sharingTable_positions hm
    simp only [List.mem_cons, List.not_mem_nil, or_false, Prod.mk.injEq] at hm
    simp only [sharingBatch, List.mem_cons, List.not_mem_nil, or_false] at hz
    rcases hm with ⟨-, rfl⟩ | ⟨-, rfl⟩ | ⟨-, rfl⟩ <;>
      rcases hz with rfl | rfl | rfl | rfl <;> simp
  · intro hrel
    rw [simultaneous_sharing] at hrel
    cases hrel with
    | some hshows =>
      cases hshows with
      | rebuild rebuilt shape below =>
        have hc := rebuilt.2
        subst hc
        -- the replacement of the second child was not rebuilt
        cases below with
        | cons _ rest =>
          cases rest with
          | cons hsecond _ => exact not_shows_listed hsecond

end Batch

end Arborist
