import Downset.Digraph
import Downset.Proofs.Order.Safety
import Mathlib.Data.List.Sort

/-!
# What normalising keeps

A search past fresh vertices that ends at the goal answers exactly if some way leads there. It
takes each vertex out of the fresh ones as it enters it, which loses no way: the last visit of a
way to that vertex starts a way that avoids it. So the successors of a vertex in the normalised
graph are its essential ones, in ascending order and without repeats if it had none before.
-/

namespace Downset.Digraph

variable {graph : Digraph} {goal u v : Nat} {fresh less : VertexSet}

/-- One or more edges lead from the first vertex to the goal, past fresh vertices only. -/
inductive Leads (graph : Digraph) (fresh : VertexSet) (goal : Nat) : Nat → Prop
  | last {v : Nat} (isFresh : v ∈ fresh) (edge : goal ∈ graph.next v) : Leads graph fresh goal v
  | head {v w : Nat} (isFresh : v ∈ fresh) (edge : w ∈ graph.next v)
      (rest : Leads graph fresh goal w) : Leads graph fresh goal v

theorem Leads.mono (hless : ∀ w ∈ less, w ∈ fresh) (h : graph.Leads less goal u) :
    graph.Leads fresh goal u := by
  induction h with
  | last hv hedge => exact .last (hless _ hv) hedge
  | head hv hedge _ ih => exact .head (hless _ hv) hedge ih

theorem Leads.above (h : graph.Leads fresh goal u) : Above graph.next u goal := by
  induction h with
  | last _ hedge => exact .single hedge
  | head _ hedge _ ih => exact .head hedge ih

/-- A way either avoids a vertex, or can be started anew behind it. -/
theorem Leads.erase (h : graph.Leads fresh goal u) (v : Nat) :
    graph.Leads (fresh.erase v) goal u ∨ goal ∈ graph.next v ∨
      ∃ w ∈ graph.next v, graph.Leads (fresh.erase v) goal w := by
  induction h with
  | @last u hu hedge =>
    by_cases heq : u = v
    · exact .inr (.inl (heq ▸ hedge))
    · exact .inl (.last (VertexSet.mem_erase.2 ⟨heq, hu⟩) hedge)
  | @head u w hu hedge _ ih =>
    rcases ih with hw | hbehind
    · by_cases heq : u = v
      · exact .inr (.inr ⟨w, heq ▸ hedge, hw⟩)
      · exact .inl (.head (VertexSet.mem_erase.2 ⟨heq, hu⟩) hedge hw)
    · exact .inr hbehind

theorem search_iff {work : List Nat} :
    graph.search goal work fresh = true ↔ ∃ v ∈ work, graph.Leads fresh goal v := by
  fun_induction search graph goal work fresh with
  | case1 fresh => simp
  | case2 fresh v rest hv hgoal =>
    simp only [true_iff]
    exact ⟨v, List.mem_cons_self, .last hv hgoal⟩
  | case3 fresh v rest hv hgoal ih =>
    have hless : ∀ w ∈ fresh.erase v, w ∈ fresh := fun w hw => (VertexSet.mem_erase.1 hw).2
    rw [ih]
    constructor
    · rintro ⟨w, hw, hleads⟩
      rcases List.mem_append.1 hw with hw | hw
      · exact ⟨v, List.mem_cons_self, .head hv hw (hleads.mono hless)⟩
      · exact ⟨w, List.mem_cons_of_mem v hw, hleads.mono hless⟩
    · rintro ⟨w, hw, hleads⟩
      rcases hleads.erase v with havoid | hedge | ⟨x, hx, hbehind⟩
      · rcases List.mem_cons.1 hw with rfl | hw
        · cases havoid with
          | last hself => exact absurd rfl (VertexSet.mem_erase.1 hself).1
          | head hself => exact absurd rfl (VertexSet.mem_erase.1 hself).1
        · exact ⟨w, List.mem_append_right _ hw, havoid⟩
      · exact absurd hedge hgoal
      · exact ⟨x, List.mem_append_left _ hx, hbehind⟩
  | case4 fresh v rest hv ih =>
    rw [ih]
    constructor
    · rintro ⟨w, hw, hleads⟩
      exact ⟨w, List.mem_cons_of_mem v hw, hleads⟩
    · rintro ⟨w, hw, hleads⟩
      rcases List.mem_cons.1 hw with rfl | hw
      · cases hleads with
        | last hself => exact absurd hself hv
        | head hself => exact absurd hself hv
      · exact ⟨w, hw, hleads⟩

theorem mem_vertices_of_mem_next (h : v ∈ graph.next u) : u ∈ graph.vertices := by
  rw [vertices, List.mem_range]
  refine Classical.byContradiction fun hge => ?_
  rw [next, Array.getD_eq_getD_getElem?, Array.getElem?_eq_none (Nat.le_of_not_lt hge)] at h
  exact List.not_mem_nil h

theorem connects_iff : graph.connects u v = true ↔ Reaches graph.next u v := by
  have hleads : Reaches graph.next u v → u = v ∨ graph.Leads graph.vertexSet v u := by
    intro h
    induction h using Relation.ReflTransGen.head_induction_on with
    | refl => exact .inl rfl
    | head step _ ih =>
      have hfresh := mem_vertexSet.2 (mem_vertices_of_mem_next step)
      rcases ih with rfl | hrest
      · exact .inr (.last hfresh step)
      · exact .inr (.head hfresh step hrest)
  simp only [connects, Bool.or_eq_true, beq_iff_eq, search_iff, List.mem_singleton, exists_eq_left]
  constructor
  · rintro (rfl | hsearch)
    · exact .refl
    · exact hsearch.above.to_reflTransGen
  · exact hleads

variable {x y : Nat}

theorem next_modify {rows : Array (List Nat)} {change : List Nat → List Nat} :
    (⟨rows.modify u change⟩ : Digraph).next x =
      if x = u ∧ u < rows.size then change ((⟨rows⟩ : Digraph).next x)
      else (⟨rows⟩ : Digraph).next x := by
  simp only [next, Array.getD_eq_getD_getElem?, Array.getElem?_modify]
  by_cases hx : u = x
  · subst hx
    by_cases hlt : u < rows.size
    · simp [hlt]
    · simp [hlt]
  · simp [hx, Ne.symm hx]

theorem mem_next_eraseEdge (hnodup : (graph.next u).Nodup) :
    y ∈ (graph.eraseEdge u v).next x ↔ y ∈ graph.next x ∧ ¬ (x = u ∧ y = v) := by
  rw [eraseEdge, next_modify]
  split
  · next hx =>
    obtain ⟨rfl, _⟩ := hx
    rw [hnodup.mem_erase_iff]
    simp [and_comm]
  · next hx =>
    refine (and_iff_left_of_imp fun hy heq => hx ⟨heq.1, ?_⟩).symm
    have hlt := List.mem_range.1 (mem_vertices_of_mem_next hy)
    exact heq.1 ▸ hlt

theorem isEssential_iff :
    graph.isEssential u v = true ↔ u = v ∨ ¬ Reaches (graph.eraseEdge u v).next u v := by
  simp only [isEssential, Bool.or_eq_true, beq_iff_eq, Bool.not_eq_true', ← connects_iff,
    Bool.not_eq_true]

theorem next_normalize :
    graph.normalize.next u = ((graph.next u).filter (graph.isEssential u)).mergeSort := by
  simp only [next, normalize, Array.getD_eq_getD_getElem?, Array.getElem?_mapIdx]
  cases graph.rows[u]? with
  | none => simp
  | some row => rfl

theorem mem_next_normalize :
    v ∈ graph.normalize.next u ↔
      v ∈ graph.next u ∧ (u = v ∨ ¬ Reaches (graph.eraseEdge u v).next u v) := by
  rw [next_normalize, List.mem_mergeSort, List.mem_filter, isEssential_iff]

theorem nodup_next_normalize (hnodup : (graph.next u).Nodup) : (graph.normalize.next u).Nodup := by
  rw [next_normalize]
  exact (List.mergeSort_perm _ _).nodup_iff.2 (hnodup.sublist List.filter_sublist)

theorem pairwise_next_normalize (hnodup : (graph.next u).Nodup) :
    (graph.normalize.next u).Pairwise (· < ·) := by
  have hle : (graph.normalize.next u).Pairwise (· ≤ ·) := by
    rw [next_normalize]
    exact List.pairwise_mergeSort' (· ≤ ·) _
  exact (hle.and (nodup_next_normalize hnodup)).imp fun hboth => Nat.lt_of_le_of_ne hboth.1 hboth.2

/-- A graph is given by its number of vertices and their successors. -/
theorem eq_of_next_eq {other : Digraph} (hsize : graph.rows.size = other.rows.size)
    (hnext : ∀ u, graph.next u = other.next u) : graph = other := by
  have hrows : graph.rows = other.rows := by
    refine Array.ext hsize fun u hu hu' => ?_
    have hrow := hnext u
    simpa only [next, Array.getD_eq_getD_getElem?, Array.getElem?_eq_getElem hu,
      Array.getElem?_eq_getElem hu', Option.getD_some] using hrow
  cases graph
  cases other
  exact congrArg Digraph.mk hrows

theorem size_normalize : graph.normalize.rows.size = graph.rows.size := by
  simp [normalize]

end Downset.Digraph
