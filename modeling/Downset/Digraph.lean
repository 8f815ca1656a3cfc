/-!
# Numbered graphs

A directed graph on the numbers below some bound, given by the list of successors of each
vertex. The order of a list is the order in which searches take its entries. A search
carries the vertices that it has not entered yet as a set of flags: it enters a vertex by
taking it out, which makes the set smaller, and so it ends.
-/

namespace Downset

structure VertexSet where
  flags : Array Bool
  deriving DecidableEq, Repr

namespace VertexSet

instance : Membership Nat VertexSet := ⟨fun s v => s.flags.getD v false = true⟩

theorem mem_def {v : Nat} {s : VertexSet} : v ∈ s ↔ s.flags.getD v false = true := Iff.rfl

instance (v : Nat) (s : VertexSet) : Decidable (v ∈ s) :=
  inferInstanceAs (Decidable (s.flags.getD v false = true))

def below (bound : Nat) : VertexSet := ⟨Array.replicate bound true⟩

def erase (s : VertexSet) (v : Nat) : VertexSet := ⟨s.flags.setIfInBounds v false⟩

def size (s : VertexSet) : Nat := s.flags.count true

@[simp] theorem mem_below {v bound : Nat} : v ∈ below bound ↔ v < bound := by
  rw [mem_def, below, Array.getD_eq_getD_getElem?, Array.getElem?_replicate]
  split <;> simp [*]

@[simp] theorem mem_erase {u v : Nat} {s : VertexSet} : u ∈ s.erase v ↔ u ≠ v ∧ u ∈ s := by
  simp only [mem_def, erase, Array.getD_eq_getD_getElem?, Array.getElem?_setIfInBounds]
  grind

theorem size_erase_lt {v : Nat} {s : VertexSet} (h : v ∈ s) : (s.erase v).size < s.size := by
  have hlt : v < s.flags.size := Nat.lt_of_not_le fun hge => by
    simp [mem_def, Array.getD_eq_getD_getElem?, Array.getElem?_eq_none hge] at h
  have hv : s.flags[v] = true := by
    simpa [mem_def, Array.getD_eq_getD_getElem?, hlt] using h
  have hpos : 0 < s.flags.count true := Array.count_pos_iff.2 (hv ▸ Array.getElem_mem hlt)
  rw [size, size, erase, Array.setIfInBounds_def, dif_pos hlt, Array.count_set hlt]
  simp only [hv, beq_self_eq_true, if_true]
  exact Nat.sub_lt hpos Nat.one_pos

end VertexSet

/-- A directed graph on the vertices 0, 1, … up to the number of rows. -/
structure Digraph where
  rows : Array (List Nat)
  deriving DecidableEq, Repr

namespace Digraph

def vertices (graph : Digraph) : List Nat := List.range graph.rows.size

def vertexSet (graph : Digraph) : VertexSet := .below graph.rows.size

theorem mem_vertexSet {graph : Digraph} {v : Nat} :
    v ∈ graph.vertexSet ↔ v ∈ graph.vertices := by
  rw [vertexSet, VertexSet.mem_below, vertices, List.mem_range]

/-- The successors of a vertex; what is no vertex has none. -/
def next (graph : Digraph) (v : Nat) : List Nat := graph.rows.getD v []

def eraseEdge (graph : Digraph) (u v : Nat) : Digraph :=
  ⟨graph.rows.modify u fun row => row.erase v⟩

/-! ## Paths

Whether a way leads from one vertex to another, found by a search that enters each vertex
at most once and ends as soon as it enters a vertex with an edge to the goal.
-/

/-- Whether one or more edges lead to `goal` from a vertex of the work list, past fresh
vertices only. -/
def search (graph : Digraph) (goal : Nat) (work : List Nat) (fresh : VertexSet) : Bool :=
  match work with
  | [] => false
  | v :: rest =>
    if _ : v ∈ fresh then
      if goal ∈ graph.next v then true
      else graph.search goal (graph.next v ++ rest) (fresh.erase v)
    else graph.search goal rest fresh
termination_by (fresh.size, work.length)
decreasing_by
  · exact .left _ _ (VertexSet.size_erase_lt ‹_›)
  · exact .right _ (Nat.lt_succ_self _)

def connects (graph : Digraph) (u v : Nat) : Bool :=
  u == v || graph.search v [u] graph.vertexSet

/-! ## Essential edges

Normalising keeps an edge between two vertices only if no other way leads from the one to
the other, which each edge is asked of the graph as it was. On a graph without cycles these
are the edges from a vertex to the vertices that cover it. Edges from a vertex to itself
are kept.
-/

def isEssential (graph : Digraph) (u v : Nat) : Bool :=
  u == v || !(graph.eraseEdge u v).connects u v

/-- The graph with the essential edges only, the successors in ascending order. -/
def normalize (graph : Digraph) : Digraph :=
  ⟨graph.rows.mapIdx fun u row => (row.filter (graph.isEssential u)).mergeSort⟩

/-! ## Topological order

The vertices in an order in which every edge leads forward. A depth-first search takes the
vertices in ascending order and the successors of each in the order of their list; the
vertices in the reverse of the order in which it leaves them are the candidate. The
candidate is an answer if no vertex has a predecessor placed after it. A graph without an
answer has a cycle, and some vertex of a cycle is named instead: one with an edge to
itself, if the search meets any, and else the first predecessor found out of place.
-/

/-- What a depth-first search still has to do. -/
inductive Visit
  | enter (v : Nat)
  | leave (v : Nat)
  deriving DecidableEq, Repr

/-- The vertices in the reverse of the order in which a search past fresh vertices leaves
them, put in front of those left before; or the first vertex entered that has an edge to
itself. -/
def visit (graph : Digraph) (work : List Visit) (fresh : VertexSet) (left : List Nat) :
    Except Nat (List Nat) :=
  match work with
  | [] => .ok left
  | .leave v :: rest => graph.visit rest fresh (v :: left)
  | .enter v :: rest =>
    if _ : v ∈ fresh then
      if v ∈ graph.next v then .error v
      else graph.visit ((graph.next v).map .enter ++ .leave v :: rest) (fresh.erase v) left
    else graph.visit rest fresh left
termination_by (fresh.size, work.length)
decreasing_by
  · exact .right _ (Nat.lt_succ_self _)
  · exact .left _ _ (VertexSet.size_erase_lt ‹_›)
  · exact .right _ (Nat.lt_succ_self _)

/-- The order in which a search through the whole graph leaves the vertices, reversed. -/
def leaveOrder (graph : Digraph) : Except Nat (List Nat) :=
  graph.visit (graph.vertices.map .enter) graph.vertexSet []

/-- The first vertex found, placing the entries of a list in turn, that has an edge to the
entry just placed and is itself not placed yet. -/
def outOfPlace? (graph : Digraph) (unplaced : VertexSet) : List Nat → Option Nat
  | [] => none
  | v :: rest =>
    let unplaced := unplaced.erase v
    match graph.vertices.find? fun u => u ∈ unplaced && v ∈ graph.next u with
    | some u => some u
    | none => graph.outOfPlace? unplaced rest

/-- The vertices in an order in which every edge leads forward, or a vertex on a cycle. -/
def topologicalOrder (graph : Digraph) : Except Nat (List Nat) := do
  let order ← graph.leaveOrder
  match graph.outOfPlace? graph.vertexSet order with
  | some v => throw v
  | none => return order

end Digraph

end Downset
