import Downset.Digraph
import Downset.Fault
import Downset.KeyOrder

/-!
# Finite orders

An order on finitely many keys. Keys are numbered in order of first appearance, and each has
the list of the numbers directly above it. A finite order serves as an order on keys, and can
be listed from the lowest keys up.
-/

namespace Downset

/-- Finitely many keys and, for each, the keys declared directly above it. -/
structure Poset (K : Type) where
  /-- The keys, in order of first appearance. -/
  keys : List K
  /-- For each key the numbers of the keys directly above it. -/
  above : Array (List Nat)
  deriving DecidableEq, Repr

namespace Poset

variable {K : Type}

def empty : Poset K := ⟨[], #[]⟩

instance : EmptyCollection (Poset K) := ⟨empty⟩

def graph (poset : Poset K) : Digraph := ⟨poset.above⟩

def describe (poset : Poset K) : String := "poset of " ++ poset.keys.length.repr ++ " keys"

/-- All keys in an order in which every key comes before the keys above it. Fails with a key
on a cycle if there is no such order. -/
def topologicalOrder [Quotable K] (poset : Poset K) : Except Fault (List K) :=
  match poset.graph.topologicalOrder with
  | .ok order => .ok (order.filterMap fun v => poset.keys[v]?)
  | .error v => .error (.cycleDetected poset.describe ((poset.keys[v]?).elim "" quote))

variable [DecidableEq K]

def number? (poset : Poset K) (key : K) : Option Nat := poset.keys.idxOf? key

def numbered (poset : Poset K) : List (K × Nat) := poset.keys.zipIdx

/-- The keys directly above a key; a key that was not declared has none. -/
def successors (poset : Poset K) (key : K) : List K :=
  match poset.number? key with
  | some u => (poset.graph.next u).filterMap fun v => poset.keys[v]?
  | none => []

theorem mem_keys_of_mem_successors {poset : Poset K} {key other : K}
    (h : other ∈ poset.successors key) : other ∈ poset.keys := by
  rw [successors] at h
  split at h
  · obtain ⟨v, _, hv⟩ := List.mem_filterMap.1 h
    exact List.mem_of_getElem? hv
  · cases h

def toKeyOrder (poset : Poset K) : KeyOrder K where
  name := poset.describe
  successors := poset.successors
  finite_above _ :=
    ⟨poset.keys, fun _ => KeyOrder.mem_of_above fun _ _ => mem_keys_of_mem_successors⟩

end Poset

end Downset
