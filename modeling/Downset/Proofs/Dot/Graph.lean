import Downset.OrderedSet
import Downset.Proofs.Dot.Lines
import Mathlib.Data.List.Induction

/-!
# Drawings of lists of nodes

Every place of a list of nodes has its line. A node that stands at several places is drawn with the
number of the last, and its edges come where it stands first. The text tells nothing else, and all
of this: two drawings have the same text just if their nodes and their edges are drawn alike.
-/

namespace Downset.Dot

section Places

variable {N : Type} {nodes : List N} {node last : N} {place : Nat}

/-- The node stands at this place of the list, and nowhere behind it. -/
def LastPlace (nodes : List N) (node : N) (place : Nat) : Prop :=
  nodes[place]? = some node ∧ ∀ other, nodes[other]? = some node → other ≤ place

theorem getElem?_concat_eq_some :
    (nodes ++ [last])[place]? = some node ↔
      nodes[place]? = some node ∨ place = nodes.length ∧ last = node := by
  rcases Nat.lt_trichotomy place nodes.length with hlt | rfl | hgt
  · simp [List.getElem?_append_left hlt, Nat.ne_of_lt hlt]
  · simp
  · have hlength : (nodes ++ [last]).length ≤ place := by
      rw [List.length_append, List.length_singleton]
      exact hgt
    have hout : (nodes ++ [last])[place]? = none := List.getElem?_eq_none hlength
    rw [hout, List.getElem?_eq_none (Nat.le_of_lt hgt)]
    simp [Nat.ne_of_gt hgt]

theorem lastPlace_concat_self : LastPlace (nodes ++ [node]) node place ↔ nodes.length = place := by
  have hlt : ∀ other, (nodes ++ [node])[other]? = some node → other ≤ nodes.length := by
    intro other hother
    obtain ⟨hlt, _⟩ := List.getElem?_eq_some_iff.1 hother
    rw [List.length_append, List.length_singleton] at hlt
    omega
  constructor
  · rintro ⟨hplace, hlast⟩
    exact Nat.le_antisymm (hlast _ (by simp)) (hlt _ hplace)
  · rintro rfl
    exact ⟨by simp, hlt⟩

theorem lastPlace_concat_of_ne (h : node ≠ last) :
    LastPlace (nodes ++ [last]) node place ↔ LastPlace nodes node place := by
  simp [LastPlace, getElem?_concat_eq_some, h.symm]

end Places

section Numbering

variable {N : Type} [DecidableEq N] {nodes : List N} {node : N} {place : Nat}

theorem numbering_concat (nodes : List N) (node : N) :
    numbering (nodes ++ [node]) = (numbering nodes).insert node nodes.length := by
  simp [numbering, List.zipIdx_append]

theorem keys_numbering (nodes : List N) :
    (numbering nodes).keys = (OrderedSet.ofList nodes).toList := by
  induction nodes using List.reverseRecOn with
  | nil => rfl
  | append_singleton nodes node ih =>
    have hset : OrderedSet.ofList (nodes ++ [node]) = (OrderedSet.ofList nodes).insert node := by
      simp [OrderedSet.ofList, OrderedSet.insertMany_append]
    rw [numbering_concat, hset]
    by_cases hmem : node ∈ OrderedSet.ofList nodes
    · rw [OrderedSet.insert_of_mem hmem, Table.keys_insert_of_mem (ih ▸ hmem), ih]
    · rw [OrderedSet.toList_insert_of_not_mem hmem, Table.keys_insert_of_not_mem (ih ▸ hmem), ih]

theorem find?_numbering :
    (numbering nodes).find? node = some place ↔ LastPlace nodes node place := by
  -- From the end of the list, since the last node takes the number over from its earlier places.
  induction nodes using List.reverseRecOn generalizing place with
  | nil => simp [numbering, LastPlace]
  | append_singleton nodes last ih =>
    rw [numbering_concat, Table.find?_insert]
    by_cases heq : node = last
    · subst heq
      rw [if_pos rfl, Option.some.injEq, lastPlace_concat_self]
    · rw [if_neg heq, ih, lastPlace_concat_of_ne heq]

theorem mem_keys_numbering : node ∈ (numbering nodes).keys ↔ node ∈ nodes := by
  rw [keys_numbering, ← OrderedSet.mem_def, OrderedSet.mem_ofList]

end Numbering

section Drawings

variable {N N' : Type} [DecidableEq N] [DecidableEq N'] (nodes : List N) (successors : N → List N)
  (color : N → Color) (label : N → String)

/-- The edges of every node come where it stands first. They lead between last places. -/
theorem exists_number_edges : ∃ number : N → Nat,
    (∀ node ∈ nodes, LastPlace nodes node (number node)) ∧
    (graph nodes successors color label).edges =
      (OrderedSet.ofList nodes).toList.flatMap fun node =>
        ((successors node).filter (· ∈ nodes)).map fun next => (number node, number next) := by
  let number : N → Nat := fun node => ((numbering nodes).find? node).getD 0
  have hnumber : ∀ node place, (numbering nodes).find? node = some place → number node = place := by
    intro node place h
    simp [number, h]
  have hfind : ∀ node ∈ nodes, (numbering nodes).find? node = some (number node) := by
    intro node hmem
    obtain ⟨place, hplace⟩ := Option.isSome_iff_exists.1
      (Table.find?_isSome_iff.2 (mem_keys_numbering.2 hmem))
    rw [hplace, hnumber node place hplace]
  have hentries : (numbering nodes).entries =
      (OrderedSet.ofList nodes).toList.map fun node => (node, number node) := by
    rw [← keys_numbering, Table.keys, List.map_map]
    refine (List.map_id _).symm.trans (List.map_congr_left fun entry hentry => ?_)
    exact Prod.ext rfl (hnumber entry.1 entry.2 (Table.mem_entries_iff.1 hentry)).symm
  have hnext : ∀ node, ((successors node).filterMap fun next =>
      ((numbering nodes).find? next).map fun place => (number node, place)) =
        ((successors node).filter (· ∈ nodes)).map fun next => (number node, number next) := by
    intro node
    rw [← List.filterMap_eq_map, List.filterMap_filter]
    apply List.filterMap_congr
    intro next _
    by_cases hmem : next ∈ nodes
    · simp [hmem, hfind next hmem]
    · have hnone : (numbering nodes).find? next = none :=
        Table.find?_eq_none_iff.2 fun hkey => hmem (mem_keys_numbering.1 hkey)
      simp [hmem, hnone]
  refine ⟨number, fun node hmem => find?_numbering.1 (hfind node hmem), ?_⟩
  simp only [graph, hentries, List.flatMap_map, hnext]

/-- The text of a drawing has a line for every place of the list, and then a line for every edge from
a node, once, to a successor in the list. A node that stands there more than once has the number of
its last place. Two drawings have the same text if and only if their nodes have the same labels and
colours and their edges are the same. -/
theorem drawn_unambiguously (nodes' : List N') (successors' : N' → List N') (color' : N' → Color)
    (label' : N' → String) :
    let drawing := graph nodes successors color label
    let drawing' := graph nodes' successors' color' label'
    drawing.nodes = nodes.map (fun node => (label node, color node)) ∧
    (∃ number : N → Nat, (∀ node ∈ nodes, LastPlace nodes node (number node)) ∧
      drawing.edges = (OrderedSet.ofList nodes).toList.flatMap fun node =>
        ((successors node).filter (· ∈ nodes)).map fun next => (number node, number next)) ∧
    drawing.render.toList.splitOn '\n' =
      "digraph \x7b".toList ::
        (nodes.zipIdx.map fun node => (Line.node node.2 (label node.1) (color node.1)).text) ++
        (drawing.edges.map fun edge => (Line.edge edge.1 edge.2).text) ++ ["\x7d".toList, []] ∧
    (drawing.render = drawing'.render ↔
      drawing.nodes = drawing'.nodes ∧ drawing.edges = drawing'.edges) := by
  intro drawing drawing'
  refine ⟨rfl, exists_number_edges nodes successors color label, ?_, ?_⟩
  · have hlines : drawing.lines =
        (nodes.zipIdx.map fun node => .node node.2 (label node.1) (color node.1)) ++
          drawing.edges.map fun edge => .edge edge.1 edge.2 := by
      simp [drawing, Graph.lines, graph, List.zipIdx_map]
    rw [Graph.render, String.toList_ofList, splitOn_layout, hlines]
    simp only [List.map_append, List.map_map, List.cons_append]
    rfl
  · rw [render_injective.eq_iff, Graph.mk.injEq]

/-- The first node stands in two places, and the successor 9 of the other in none. -/
example : (graph [7, 8, 7] (fun n => if n = 7 then [8, 8] else [9, 7]) (fun _ => .black) Nat.repr).edges =
    [(2, 1), (2, 1), (1, 2)] := by decide

end Drawings

end Downset.Dot
