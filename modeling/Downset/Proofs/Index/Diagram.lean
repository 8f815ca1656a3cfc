import Downset.Index.Diagram
import Downset.Proofs.Arena.Union
import Downset.Proofs.Dot.Graph
import Downset.Proofs.Index.Representation

/-!
# Drawings of indexes

A drawing shows each query node and each leaf once, and the sink if a key ends in it. Every link is
drawn as one edge, between the numbers of the lines of its two ends. This holds in any state, also
where puts were given up half way.
-/

namespace Downset

variable {K V : Type}

def Node.caption (render : K → String) : Node K V → String × Dot.Color
  | query key .. => (render key, .green)
  | leaf key .. => ("leaf(" ++ render key ++ ")", .black)
  | sink => ("<sink>", .black)

theorem Node.caption_eq (render : K → String) (node : Node K V) :
    node.caption render =
      (node.label render, if node.kind = .query then Dot.Color.green else Dot.Color.black) := by
  cases node <;> rfl

theorem Node.eq_sink {node : Node K V} (h : node.kind = .sink) : node = .sink := by
  cases node with
  | query | leaf => cases h
  | sink => rfl

namespace Arena

variable {arena : Arena K V}

theorem ids_eq_cons (h : 0 < arena.nodes.size) : arena.ids = .sink :: arena.ids.drop 1 := by
  obtain ⟨size, hsize⟩ := Nat.exists_eq_succ_of_ne_zero (Nat.ne_of_gt h)
  simp [ids, hsize, List.range_succ_eq_map, NodeId.sink]

theorem mem_drop_ids (h : 0 < arena.nodes.size) {n : NodeId} :
    n ∈ arena.ids.drop 1 ↔ n.index < arena.nodes.size ∧ n ≠ .sink := by
  have hids : n ∈ arena.ids ↔ n.index < arena.nodes.size := by
    simp [ids, NodeId.ext_iff]
  have hnodup : arena.ids.Nodup := nodup_ids
  rw [ids_eq_cons h, List.nodup_cons] at hnodup
  rw [← hids, ids_eq_cons h, List.mem_cons]
  constructor
  · intro hmem
    exact ⟨.inr hmem, ne_of_mem_of_not_mem hmem hnodup.1⟩
  · rintro ⟨rfl | hmem, hne⟩
    · exact absurd rfl hne
    · exact hmem

variable [DecidableEq K] {filter : KeyFilter K}

theorem Represents.kind_ne_sink_iff (h : arena.Represents filter) {n : NodeId} :
    (arena.node n).kind ≠ .sink ↔ n.index < arena.nodes.size ∧ n ≠ .sink := by
  constructor
  · intro hne
    have hlt : n.index < arena.nodes.size := index_lt_of_kind_ne_sink hne
    exact ⟨hlt, fun heq => hne ((h.sink_iff n hlt).2 heq)⟩
  · rintro ⟨hlt, hne⟩ hkind
    exact hne ((h.sink_iff n hlt).1 hkind)

end Arena

namespace Index

variable [DecidableEq K] {index : Index K V} {filter : KeyFilter K}

/-- The drawing has a line for each of the nodes, under a text for its key, and a line for each of
the links. -/
structure Shows (index : Index K V) (render : K → String) (nodes : List NodeId)
    (links : List (NodeId × NodeId)) : Prop where
  nodup_nodes : nodes.Nodup
  sink : index.arena.node .sink = .sink
  mem_nodes : ∀ n, n ∈ nodes ↔ (index.arena.node n).kind = .query ∨ (index.arena.node n).kind = .leaf ∨
    n = .sink ∧ ∃ key, index.arena.slots.find? key = some .sink
  nodup_links : links.Nodup
  mem_links : ∀ lower upper, (lower, upper) ∈ links ↔ upper ∈ (index.arena.node lower).above
  ends : ∀ link ∈ links, link.1 ∈ nodes ∧ link.2 ∈ nodes
  /-- The number of a line is the place of its node among the nodes. -/
  lines : index.toDot.toList.splitOn '\n' =
    "digraph \x7b".toList ::
      (nodes.zipIdx.map fun place =>
        let caption := (index.arena.node place.1).caption render
        (Dot.Line.node place.2 caption.1 caption.2).text) ++
      (links.map fun link => (Dot.Line.edge (nodes.idxOf link.1) (nodes.idxOf link.2)).text) ++
      ["\x7d".toList, []]

variable (h : index.arena.Represents filter)
include h

theorem mem_shown {n : NodeId} : n ∈ index.shown ↔ (index.arena.node n).kind = .query ∨
    (index.arena.node n).kind = .leaf ∨ n = .sink ∧ ∃ key, index.arena.slots.find? key = some .sink := by
  have hkinds : (index.arena.node n).kind ≠ .sink ↔
      (index.arena.node n).kind = .query ∨ (index.arena.node n).kind = .leaf := by
    cases (index.arena.node n).kind <;> simp
  rw [shown, OrderedSet.mem_insertMany, OrderedSet.mem_ofList, Table.mem_values_iff,
    Arena.mem_drop_ids h.size_pos, ← h.kind_ne_sink_iff, ← or_assoc, ← hkinds]
  constructor
  · rintro (⟨key, hslot⟩ | hkind)
    · by_cases hn : n = .sink
      · subst hn
        exact .inr ⟨rfl, key, hslot⟩
      · exact .inl (h.kind_ne_sink_iff.2 ⟨h.slot_lt key n hslot, hn⟩)
    · exact .inl hkind
  · rintro (hkind | ⟨rfl, hkey⟩)
    · exact .inr hkind
    · exact .inl hkey

theorem mem_shown_of_link {lower upper : NodeId} (hlink : upper ∈ (index.arena.node lower).above) :
    lower ∈ index.shown ∧ upper ∈ index.shown := by
  constructor
  · rcases (h.link_lower lower upper hlink).2 with hkind | hkind
    · exact (mem_shown h).2 (.inl hkind)
    · exact (mem_shown h).2 (.inr (.inl hkind))
  · exact (mem_shown h).2 (.inl (h.link_upper lower upper hlink).2)

theorem edges_diagram : index.diagram.edges =
    (index.arena.linksOf index.shown.toList).map fun link =>
      (index.shown.toList.idxOf link.1, index.shown.toList.idxOf link.2) := by
  obtain ⟨number, hnumber, hedges⟩ := Dot.exists_number_edges index.shown.toList
    (fun id => (index.arena.node id).above.toList)
    (fun id => if (index.arena.node id).kind = .query then .green else .black)
    (fun id => (index.arena.node id).label index.render)
  have hplace : ∀ n ∈ index.shown, number n = index.shown.toList.idxOf n := by
    intro n hn
    obtain ⟨hlt, hget⟩ := List.getElem?_eq_some_iff.1 (hnumber n hn).1
    have hidx := index.shown.nodup.idxOf_getElem (number n) hlt
    rw [hget] at hidx
    exact hidx.symm
  rw [diagram, hedges, OrderedSet.ofList_toList, Arena.linksOf, List.map_flatMap]
  apply List.flatMap_congr
  intro lower hlower
  have hall : ∀ upper ∈ (index.arena.node lower).above.toList, upper ∈ index.shown.toList :=
    fun upper hupper => (mem_shown_of_link h hupper).2
  rw [List.filter_eq_self.2 (by simpa using hall), List.map_map]
  apply List.map_congr_left
  intro upper hupper
  rw [hplace lower hlower, hplace upper (hall upper hupper)]
  rfl

theorem shows_diagram :
    index.Shows index.render index.shown.toList (index.arena.linksOf index.shown.toList) where
  nodup_nodes := index.shown.nodup
  sink := Node.eq_sink ((h.sink_iff .sink h.size_pos).2 rfl)
  mem_nodes _ := mem_shown h
  nodup_links := Arena.nodup_linksOf index.shown.nodup
  mem_links lower upper := by
    rw [Arena.mem_linksOf]
    exact and_iff_right_of_imp fun hlink => (mem_shown_of_link h hlink).1
  ends link hlink := mem_shown_of_link h (Arena.mem_linksOf.1 hlink).2
  lines := by
    have hlines : index.diagram.lines =
        (index.shown.toList.zipIdx.map fun place =>
          let caption := (index.arena.node place.1).caption index.render
          Dot.Line.node place.2 caption.1 caption.2) ++
        (index.arena.linksOf index.shown.toList).map fun link =>
          Dot.Line.edge (index.shown.toList.idxOf link.1) (index.shown.toList.idxOf link.2) := by
      rw [Dot.Graph.lines, edges_diagram h, List.map_map]
      simp only [diagram, Dot.graph, List.zipIdx_map, List.map_map, Node.caption_eq]
      rfl
    rw [toDot, Dot.Graph.render, String.toList_ofList, Dot.splitOn_layout, hlines]
    simp only [List.map_append, List.map_map, List.cons_append]
    rfl

omit h

variable {render : K → String} {nodes : List NodeId} {links : List (NodeId × NodeId)}

theorem Shows.length_links (h : index.Shows render nodes links) : links.length = index.linkCount := by
  have hmem : ∀ link, link ∈ links ↔ link ∈ index.arena.links := by
    intro link
    rw [h.mem_links, Arena.mem_links]
  exact ((List.perm_ext_iff_of_nodup h.nodup_links Arena.nodup_links).2 hmem).length_eq

theorem Shows.countP_green (h : index.Shows render nodes links) :
    (nodes.countP fun n => ((index.arena.node n).caption render).2 = .green) = index.queryCount := by
  have hgreen : ∀ n, ((index.arena.node n).caption render).2 = .green ↔
      (index.arena.node n).kind = .query := by
    intro n
    cases index.arena.node n <;> simp [Node.caption, Node.kind]
  have hset : {n | n ∈ nodes.filter fun n => (index.arena.node n).kind = .query} =
      {n | (index.arena.node n).kind = .query} := by
    ext n
    simp only [Set.mem_ofPred_eq, List.mem_filter, decide_eq_true_eq]
    exact and_iff_right_of_imp fun hkind => (h.mem_nodes n).2 (.inl hkind)
  simp only [hgreen]
  rw [List.countP_eq_length_filter, Arena.length_eq_ncard (h.nodup_nodes.filter _), hset, queryCount,
    Arena.queryCount_eq_ncard]

end Index

namespace Session

variable [DecidableEq K] [Quotable K] [DecidableEq V] {order : KeyOrder K} {index : Index K V}

end Session

end Downset
