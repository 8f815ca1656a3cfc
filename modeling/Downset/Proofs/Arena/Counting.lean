import Downset.Proofs.Arena.Links
import Mathlib.Data.Set.Card

/-!
# Counting nodes and links

The number of query nodes and the number of links are the sizes of sets: of the slots that hold
query nodes, and of the pairs of slots with a link from the first to the second.
-/

namespace Downset.Arena

variable {K V : Type} {arena : Arena K V}

theorem nodup_ids : arena.ids.Nodup := by
  apply List.nodup_range.map
  intro i j hij
  exact congrArg NodeId.index hij

theorem toList_nodes_eq_map : arena.nodes.toList = arena.ids.map arena.node := by
  apply List.ext_getElem
  · simp [ids]
  · intro i hi _
    have hlt : i < arena.nodes.size := by simpa using hi
    simp [ids, node, Array.getD_eq_getD_getElem?, hlt]

theorem length_eq_ncard {α : Type} {xs : List α} (h : xs.Nodup) :
    xs.length = Set.ncard {a | a ∈ xs} := by
  classical
  have hset : {a | a ∈ xs} = (xs.toFinset : Set α) := by
    ext a
    simp
  rw [hset, Set.ncard_coe_finset, List.toFinset_card_of_nodup h]

theorem queryCount_eq_ncard :
    arena.queryCount = Set.ncard {n | (arena.node n).kind = .query} := by
  have hset : {n | (arena.node n).kind = .query} =
      {n | n ∈ arena.ids.filter fun n => (arena.node n).kind = .query} := by
    ext n
    constructor
    · intro hn
      exact List.mem_filter.2 ⟨mem_ids (query_ne_sink hn), decide_eq_true hn⟩
    · intro hn
      exact of_decide_eq_true (List.mem_filter.1 hn).2
  rw [hset, ← length_eq_ncard (nodup_ids.filter _), queryCount, toList_nodes_eq_map,
    List.countP_map, List.countP_eq_length_filter]
  rfl

def linksOf (arena : Arena K V) (nodes : List NodeId) : List (NodeId × NodeId) :=
  nodes.flatMap fun lower => (arena.node lower).above.toList.map (lower, ·)

theorem mem_linksOf {nodes : List NodeId} {lower upper : NodeId} :
    (lower, upper) ∈ arena.linksOf nodes ↔ lower ∈ nodes ∧ upper ∈ (arena.node lower).above := by
  simp only [linksOf, List.mem_flatMap, List.mem_map, Prod.mk.injEq]
  constructor
  · rintro ⟨n, hn, m, hm, rfl, rfl⟩
    exact ⟨hn, hm⟩
  · rintro ⟨hlower, hupper⟩
    exact ⟨lower, hlower, upper, hupper, rfl, rfl⟩

theorem nodup_linksOf {nodes : List NodeId} (h : nodes.Nodup) : (arena.linksOf nodes).Nodup := by
  rw [linksOf, List.nodup_flatMap]
  constructor
  · intro lower _
    exact (arena.node lower).above.nodup.map fun a b hab => congrArg Prod.snd hab
  · apply (List.nodup_iff_pairwise_ne.1 h).imp
    intro n m hne
    rw [Function.onFun, List.disjoint_left]
    intro pair hn hm
    obtain ⟨_, _, rfl⟩ := List.mem_map.1 hn
    obtain ⟨_, _, heq⟩ := List.mem_map.1 hm
    exact hne (congrArg Prod.fst heq).symm

theorem links_eq : arena.links = arena.linksOf arena.ids := rfl

theorem mem_links {lower upper : NodeId} :
    (lower, upper) ∈ arena.links ↔ upper ∈ (arena.node lower).above := by
  rw [links_eq, mem_linksOf]
  exact and_iff_right_of_imp fun hupper => mem_ids (kind_ne_sink_of_mem_above hupper)

theorem nodup_links : arena.links.Nodup := nodup_linksOf nodup_ids

theorem linkCount_eq_ncard :
    arena.linkCount = Set.ncard {pair : NodeId × NodeId | pair.2 ∈ (arena.node pair.1).above} := by
  have hset : {pair : NodeId × NodeId | pair.2 ∈ (arena.node pair.1).above} =
      {pair | pair ∈ arena.links} := by
    ext ⟨lower, upper⟩
    exact mem_links.symm
  rw [linkCount, length_eq_ncard nodup_links, hset]

end Downset.Arena
