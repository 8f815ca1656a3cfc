import Downset.Arena.Walk
import Downset.Arena.Aggregate
import Downset.Fault

/-!
# Indexes

An index holds values by keys of an order. What it answers for a key is the union of the
values put at the key and at every key below it, that is, at every key from which steps of
the order lead to it. Only keys that the filter accepts have an answer; the values of the
others flow to the nearest accepted keys above them.

An index is written and read in turns. The combined values that were computed while it was
read are dropped when it is written again.
-/

namespace Downset

/-- Values by keys of an order, with combined values for the accepted keys. -/
structure Index (K V : Type) where
  order : KeyOrder K
  filter : KeyFilter K
  /-- The text for a key in messages and drawings. -/
  render : K → String
  arena : Arena K V
  /-- What is stored of combined values, by node. -/
  caches : Table NodeId (Cache V)
  phase : Phase

namespace Index

variable {K V : Type}

def empty (order : KeyOrder K) (filter : KeyFilter K) (render : K → String) : Index K V :=
  ⟨order, filter, render, ∅, ∅, .initial⟩

def withRender (index : Index K V) (render : K → String) : Index K V :=
  { index with render := render }

/-- Allows reading. Nothing is computed before the first `get`. -/
def makeReadable (index : Index K V) : Index K V := { index with phase := .readable }

/-- Allows writing again. What was computed is dropped, and the values are kept. -/
def makeWritable (index : Index K V) : Index K V := { index with phase := .writable, caches := ∅ }

/-- Allows writing again and forgets all values put so far. The nodes stay. -/
def makeWritableAndClear (index : Index K V) : Index K V :=
  { index.makeWritable with arena := index.arena.mapNodes Node.clear }

variable [DecidableEq K]

/-- Builds what is missing for a key and answers its slot. If the order runs into a cycle,
what was built before stays. -/
def locate (index : Index K V) (key : K) : Except Fault NodeId × Index K V :=
  let (found, arena) := (Build.locate index.order index.filter key).run index.arena
  let index := { index with arena := arena }
  match found with
  | .ok id => (.ok id, index)
  | .error twice => (.error (.cycleDetected index.order.name (index.render twice)), index)

def locateAll (index : Index K V) : List K → Except Fault (Index K V)
  | [] => .ok index
  | key :: rest =>
    match index.locate key with
    | (.ok _, index) => index.locateAll rest
    | (.error fault, _) => .error fault

def ofPredicate [Quotable K] (order : KeyOrder K) (holds : K → Bool) : Index K V :=
  empty order (.predicate holds) quote

/-- An index that answers the keys of a list. They are all built at once, so that links
which others imply can be dropped. Fails if the order has a cycle at or above one of them. -/
def ofKeys [Quotable K] (order : KeyOrder K) (keys : List K) : Except Fault (Index K V) := do
  let keys := OrderedSet.ofList keys
  let index ← (empty order (.keySet keys) quote).locateAll keys.toList
  return { index with arena := index.arena.dropTransitive }

variable [DecidableEq V]

def put (index : Index K V) (key : K) (value : V) : Except Fault Unit × Index K V :=
  match index.phase.require .writable with
  | .error fault => (.error fault, index)
  | .ok () =>
    match index.locate key with
    | (.error fault, index) => (.error fault, index)
    | (.ok id, index) => (.ok (), { index with arena := index.arena.modify id (·.accept value) })

/-- The combined values of a key, in order of arrival along the links. A key that cannot be
queried, or at and below which nothing was ever put, has none. -/
def get (index : Index K V) (key : K) : Except Fault (OrderedSet V) × Index K V :=
  match index.phase.require .readable with
  | .error fault => (.error fault, index)
  | .ok () =>
    match index.arena.slots.find? key with
    | none => (.ok ∅, index)
    | some id =>
      if (index.arena.node id).kind = .query then
        let caches := (index.arena.aggregate id (.start index.caches)).caches
        (.ok (((caches.find? id).map Cache.values).getD ∅), { index with caches := caches })
      else (.ok ∅, index)

end Index

end Downset
