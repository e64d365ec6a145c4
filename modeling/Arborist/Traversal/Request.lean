import Arborist.Batch
import Arborist.Traversal.Context

/-!
# Requests of a sequential walk

A callback may store variables, set the accumulate that is handed on, and edit the node it is called
with. There are two ways to edit:

* `change` and `delete` concern the context alone: the walk goes on with another node, or without
  the children of this one;
* `replace`, `remove`, `insertBefore` and `insertAfter` also **record** the edit, so that a
  transformation can build a new tree from it. They are refused outside of a transformation.

The state that requests work on is the `Ledger`: the arena and the recorded edits.
-/

namespace Arborist

namespace Error

/-- A deleted node was to be changed. -/
def changeOfDeleted (place : String) : Error :=
  violationAt place "A deleted node can't be changed"

/-- A node was to be deleted twice. -/
def deletedTwice (place : String) : Error :=
  violationAt place "The node has already been deleted"

/-- A changed node was to be deleted. -/
def deleteOfChanged (place : String) : Error :=
  violationAt place "A changed node can't be deleted"

/-- An edit was to be recorded outside of a transformation. -/
def notRecording (place : String) : Error :=
  violationAt place "Edits can only be recorded during a tree transformation"

/-- A node was to be inserted beside a root of the walk. -/
def besideRootAt (place : String) : Error :=
  { besideRoot with context := some place }

/-- The edit that was recorded for a node is not there. -/
def noZipperForNodeAt (place : String) : Error :=
  { noZipperForNode with context := some place }

end Error

/-- What a callback of a sequential walk may ask for. -/
inductive Request (N A : Type) {κ : Type} (β : κ → Type) where
  /-- Store a variable on this context. -/
  | setVar (key : κ) (value : β key)
  /-- Set the accumulate that is handed on. -/
  | setAccumulate (accumulate : A)
  /-- Go on with another node. -/
  | change (node : N)
  /-- Go on without the children of this node. -/
  | delete
  /-- Replace this node, and record it. -/
  | replace (node : N)
  /-- Remove this node, and record it. -/
  | remove
  /-- Record that a node is put in front of this one. -/
  | insertBefore (node : N)
  /-- Record that a node is put behind this one. -/
  | insertAfter (node : N)

/-- The arena of a walk and, during a transformation, the edits recorded so far. -/
structure Ledger (N A : Type) {κ : Type} (β : κ → Type) where
  arena : Arena N A β
  edits : Option (List (Zipper N)) := none

/-- The context on which a callback works: its place in the arena, and how it was at the start. -/
structure Spot (N A : Type) {κ : Type} (β : κ → Type) where
  id : Nat
  start : Context N A β

variable {N A κ : Type} {β : κ → Type}

/-- Changes the context at a place of the arena. -/
def Ledger.modifyAt (l : Ledger N A β) (id : Nat) (f : Context N A β → Context N A β) :
    Ledger N A β :=
  { l with arena := l.arena.modify id f }

/-- Adds an edit to the record. -/
def Ledger.record (l : Ledger N A β) (z : Zipper N) : Ledger N A β :=
  { l with edits := l.edits.map (· ++ [z]) }

namespace Spot

variable (spot : Spot N A β)

/-- The context as it stands. -/
def context (l : Ledger N A β) : Context N A β :=
  l.arena.getD spot.id spot.start

/-- Where the context stands, in words. -/
def place (l : Ledger N A β) : String :=
  l.arena.place (spot.context l)

/-- The edit of this position with the given node. -/
def zipper (l : Ledger N A β) (node : N) (edit : Edit) : Zipper N :=
  { node, crumbs := l.arena.crumbs (spot.context l), edit }

/-- Refuses to go on outside of a transformation. -/
def ensureRecording : Attempt (Ledger N A β) Unit := do
  let l ← get
  if l.edits.isNone then throw (.notRecording (spot.place l))

/-- Goes on with another node. -/
def change (node : N) : Attempt (Ledger N A β) Unit := do
  let l ← get
  if (spot.context l).deleted then
    throw (.changeOfDeleted (spot.place l))
  else
    set (l.modifyAt spot.id fun c => { c with node, changed := true })

/-- Marks the node as deleted. -/
def delete : Attempt (Ledger N A β) Unit := do
  let l ← get
  if (spot.context l).deleted then
    throw (.deletedTwice (spot.place l))
  else if (spot.context l).changed then
    throw (.deleteOfChanged (spot.place l))
  else
    set (l.modifyAt spot.id fun c => { c with deleted := true })

/-- Lets the recorded edit of `previous` carry `node` instead. -/
def amend [Identified N] (previous : Identity N) (node : N) : Attempt (Ledger N A β) Unit := do
  let l ← get
  match l.edits.bind (Batch.swapFirst (identity ·.node = previous) node) with
  | some edits => set { l with edits := some edits }
  | none => throw (.noZipperForNodeAt (spot.place l))

/-- Replaces the node and records it. A node that was already changed has its edit amended. -/
def replace [Identified N] (node : N) : Attempt (Ledger N A β) Unit := do
  spot.ensureRecording
  let before := spot.context (← get)
  spot.change node
  if before.changed then
    spot.amend (identity before.node) node
  else
    modify fun l => l.record (spot.zipper l node .replace)

/-- Deletes the node and records it. -/
def remove : Attempt (Ledger N A β) Unit := do
  spot.ensureRecording
  spot.delete
  modify fun l => l.record (spot.zipper l (spot.context l).node .delete)

/-- Records that a node is put beside this one. -/
def insertBeside (node : N) (edit : Edit) : Attempt (Ledger N A β) Unit := do
  spot.ensureRecording
  let l ← get
  if (spot.context l).link.isNone then
    throw (.besideRootAt (spot.place l))
  else
    set (l.record (spot.zipper l node edit))

/-- Carries out a request. -/
def perform [Identified N] [DecidableEq κ] : Request N A β → Attempt (Ledger N A β) Unit
  | .setVar key value =>
    modify fun l => l.modifyAt spot.id fun c => { c with vars := c.vars.insert key value }
  | .setAccumulate accumulate =>
    modify fun l => l.modifyAt spot.id fun c => { c with next := some accumulate }
  | .change node => spot.change node
  | .delete => spot.delete
  | .replace node => spot.replace node
  | .remove => spot.remove
  | .insertBefore node => spot.insertBeside node .insertBefore
  | .insertAfter node => spot.insertBeside node .insertAfter

/-- What a callback sees of the ledger. -/
def cursor [Identified N] (rootVars : Vars β) (visited : List (Identity N))
    (l : Ledger N A β) : Cursor N A β :=
  { here := spot.context l, arena := l.arena, rootVars, visited }

end Spot

end Arborist
