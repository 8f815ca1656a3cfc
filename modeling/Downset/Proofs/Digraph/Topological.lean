import Downset.Proofs.Digraph.DepthFirst

/-!
# Topological orders

The order in which a search leaves the vertices, reversed, is an answer if no edge leads backward
in it. An edge that does closes a cycle: its end was left after its start and so leads back to it.
-/

namespace Downset

section Precedence

variable {α : Type} {a b : α} {xs : List α}

theorem idxOf_lt_of_sublist [DecidableEq α] (hnodup : xs.Nodup) (h : [a, b].Sublist xs) :
    xs.idxOf a < xs.idxOf b := by
  obtain ⟨before, after, rfl, ha, hb⟩ := List.cons_sublist_iff.1 h
  rw [List.singleton_sublist] at hb
  have hnot : b ∉ before := fun hmem => List.disjoint_of_nodup_append hnodup hmem hb
  rw [List.idxOf_append_of_mem ha, List.idxOf_append_of_notMem hnot]
  have hlt := List.idxOf_lt_length_of_mem ha
  omega

theorem sublist_of_idxOf_lt [DecidableEq α] (hb : b ∈ xs) (h : xs.idxOf a < xs.idxOf b) :
    [a, b].Sublist xs := by
  induction xs with
  | nil => cases hb
  | cons x xs ih =>
    by_cases hxa : x = a
    · subst hxa
      rcases List.mem_cons.1 hb with rfl | hb
      · exact absurd h (Nat.lt_irrefl _)
      · exact List.Sublist.cons_cons x (List.singleton_sublist.2 hb)
    · have hxb : x ≠ b := by
        rintro rfl
        simp at h
      rw [List.idxOf_cons_ne _ hxa, List.idxOf_cons_ne _ hxb] at h
      exact (ih ((List.mem_cons.1 hb).resolve_left (Ne.symm hxb)) (by omega)).cons x

end Precedence

namespace Digraph

variable {graph : Digraph} {u v : Nat} {unplaced : VertexSet} {order : List Nat}

/-- A vertex out of place has an edge to a vertex that is placed before it. -/
theorem exists_of_outOfPlace?_eq_some (h : graph.outOfPlace? unplaced order = some u) :
    u ∈ graph.vertices ∧ u ∈ unplaced ∧ ∃ before v after,
      order = before ++ v :: after ∧ v ∈ graph.next u ∧ u ∉ before ++ [v] := by
  induction order generalizing unplaced with
  | nil => cases h
  | cons w order ih =>
    simp only [outOfPlace?] at h
    split at h
    · next hfind =>
      cases h
      have hfound := List.find?_some hfind
      simp only [Bool.and_eq_true, decide_eq_true_eq, VertexSet.mem_erase] at hfound
      obtain ⟨⟨hne, hunplaced⟩, hedge⟩ := hfound
      exact ⟨List.mem_of_find?_eq_some hfind, hunplaced, [], w, order, rfl, hedge, by simpa using hne⟩
    · obtain ⟨hvertex, hunplaced, before, v, after, rfl, hedge, hnot⟩ := ih h
      obtain ⟨hne, hunplaced⟩ := VertexSet.mem_erase.1 hunplaced
      refine ⟨hvertex, hunplaced, w :: before, v, after, rfl, hedge, ?_⟩
      rw [List.cons_append, List.mem_cons, not_or]
      exact ⟨hne, hnot⟩

/-- If no vertex is out of place, edges lead to vertices placed later. -/
theorem mem_before_of_outOfPlace?_eq_none {before after : List Nat}
    (h : graph.outOfPlace? unplaced (before ++ v :: after) = none) (hu : u ∈ graph.vertices)
    (hunplaced : u ∈ unplaced) (hedge : v ∈ graph.next u) : u ∈ before ++ [v] := by
  induction before generalizing unplaced with
  | nil =>
    simp only [List.nil_append, outOfPlace?] at h
    split at h
    · cases h
    · next hfind =>
      have hnot := List.find?_eq_none.1 hfind u hu
      simp only [Bool.and_eq_true, decide_eq_true_eq, VertexSet.mem_erase] at hnot
      refine List.mem_singleton.2 (Classical.byContradiction fun hne => ?_)
      exact hnot ⟨⟨hne, hunplaced⟩, hedge⟩
  | cons w before ih =>
    simp only [List.cons_append, outOfPlace?] at h
    split at h
    · cases h
    · by_cases hne : u = w
      · exact hne ▸ List.mem_cons_self
      · exact List.mem_cons_of_mem w (ih h (VertexSet.mem_erase.2 ⟨hne, hunplaced⟩))

/-- The vertices are listed once each, with every edge between vertices leading forward. -/
structure Sorts (graph : Digraph) (order : List Nat) : Prop where
  nodup : order.Nodup
  mem_iff : ∀ v, v ∈ order ↔ v ∈ graph.vertices
  forward : ∀ u, ∀ v ∈ graph.next u, v ∈ graph.vertices → [u, v].Sublist order

section Finished

variable {fresh : VertexSet}

theorem Searching.mem_iff_of_finished (h : graph.Searching [] fresh order) :
    v ∈ order ↔ v ∈ graph.vertices := by
  constructor
  · exact fun hv => (h.stale v hv).2
  · intro hv
    rcases h.met v hv with hfresh | hleft
    · exact absurd (h.awaited v hfresh).2 List.not_mem_nil
    · exact hleft

/-- The edge that leads backward closes a cycle. -/
theorem Searching.onCycle_of_outOfPlace? (h : graph.Searching [] fresh order)
    (hplace : graph.outOfPlace? unplaced order = some u) :
    u ∈ graph.vertices ∧ OnCycle graph.next u := by
  obtain ⟨hu, _, before, v, after, rfl, hedge, hnot⟩ := exists_of_outOfPlace?_eq_some hplace
  refine ⟨hu, .head' hedge ?_⟩
  have hmemu := h.mem_iff_of_finished.2 hu
  rw [List.append_cons, List.mem_append] at hmemu
  obtain ⟨middle, later, rfl⟩ := List.append_of_mem (hmemu.resolve_left hnot)
  have hv : v ∈ graph.vertices := h.mem_iff_of_finished.1 (by simp)
  have hsplit : before ++ v :: (middle ++ u :: later) = (before ++ v :: middle) ++ u :: later := by
    simp
  refine (h.done _ u later hsplit v hedge hv).resolve_left fun hlater => ?_
  have hnodup : (before ++ v :: (middle ++ u :: later)).Nodup := h.nodup
  have hnotmem := (List.nodup_cons.1 (List.nodup_append.1 hnodup).2.1).1
  exact hnotmem (List.mem_append_right middle (List.mem_cons_of_mem u hlater))

/-- If no edge leads backward, the vertices are sorted. -/
theorem Searching.sorts (h : graph.Searching [] fresh order)
    (hplace : graph.outOfPlace? graph.vertexSet order = none) : graph.Sorts order := by
  refine ⟨h.nodup, fun v => h.mem_iff_of_finished, ?_⟩
  intro u v hedge hv
  have hu := mem_vertices_of_mem_next hedge
  obtain ⟨before, after, rfl⟩ := List.append_of_mem (h.mem_iff_of_finished.2 hv)
  have hplaced := mem_before_of_outOfPlace?_eq_none hplace hu (mem_vertexSet.2 hu) hedge
  rcases List.mem_append.1 hplaced with hbefore | hsame
  · have hfirst : [v].Sublist (v :: after) := List.singleton_sublist.2 List.mem_cons_self
    exact (List.singleton_sublist.2 hbefore).append hfirst
  · rw [List.mem_singleton.1 hsame] at hedge
    exact absurd hedge (h.loopless v (h.mem_iff_of_finished.2 hv))

end Finished

theorem topologicalOrder_cases (graph : Digraph) :
    (∃ order, graph.topologicalOrder = .ok order ∧ graph.Sorts order) ∨
    ∃ v ∈ graph.vertices, graph.topologicalOrder = .error v ∧ OnCycle graph.next v := by
  have hstart : graph.Searching (graph.vertices.map .enter) graph.vertexSet [] := .start
  have hspec := visit_spec hstart
  unfold topologicalOrder leaveOrder
  cases hleave : graph.visit (graph.vertices.map .enter) graph.vertexSet [] with
  | error v =>
    rw [hleave] at hspec
    exact .inr ⟨v, hspec.2, rfl, .single hspec.1⟩
  | ok order =>
    rw [hleave] at hspec
    obtain ⟨fresh, hdone⟩ := hspec
    simp only [bind, Except.bind]
    cases hplace : graph.outOfPlace? graph.vertexSet order with
    | some u =>
      obtain ⟨hu, hcycle⟩ := hdone.onCycle_of_outOfPlace? hplace
      exact .inr ⟨u, hu, rfl, hcycle⟩
    | none => exact .inl ⟨order, rfl, hdone.sorts hplace⟩

end Digraph

end Downset
