import Downset.Digraph
import Downset.Proofs.Digraph.Normalize
import Mathlib.Data.List.Nodup

/-!
# The order in which a search leaves the vertices

A depth-first search stands on a path of open vertices, whose leaving waits in the work list. All
work above the leaving of a vertex is at vertices that the open vertex leads to. So when a vertex
is left, each of its successors was left before, or is open and leads back to it. If a search
through the whole graph has no edge from a vertex to itself on its way, it leaves each vertex once.
-/

namespace Downset.Digraph

variable {graph : Digraph} {u v w : Nat} {fresh : VertexSet} {work rest : List Visit}
  {left : List Nat}

def Visit.vertex : Visit → Nat
  | .enter v => v
  | .leave v => v

/-- The vertices that were entered and are still to be left. -/
def opened (work : List Visit) : List Nat :=
  work.filterMap fun
    | .leave v => some v
    | .enter _ => none

@[simp] theorem opened_nil : opened [] = [] := rfl

@[simp] theorem opened_enter : opened (.enter v :: work) = opened work := rfl

@[simp] theorem opened_leave : opened (.leave v :: work) = v :: opened work := rfl

@[simp] theorem opened_enters (vs : List Nat) : opened (vs.map .enter ++ work) = opened work := by
  induction vs with
  | nil => rfl
  | cons v vs ih => simpa using ih

theorem mem_opened : v ∈ opened work ↔ .leave v ∈ work := by
  induction work with
  | nil => simp
  | cons task work ih => cases task <;> simp [ih]

theorem eq_of_enters_append {vs : List Nat} {above below : List Visit}
    (h : vs.map .enter ++ .leave u :: rest = above ++ .leave v :: below) :
    v = u ∧ above = vs.map .enter ∨
      ∃ above', above = vs.map .enter ++ .leave u :: above' ∧ rest = above' ++ .leave v :: below := by
  induction vs generalizing above with
  | nil =>
    cases above with
    | nil => exact .inl (by simpa [eq_comm] using And.left (List.cons.inj h))
    | cons task above =>
      obtain ⟨rfl, hrest⟩ := List.cons.inj h
      exact .inr ⟨above, rfl, hrest⟩
  | cons x vs ih =>
    cases above with
    | nil => simp at h
    | cons task above =>
      obtain ⟨rfl, htail⟩ := List.cons.inj h
      refine (ih htail).imp ?_ ?_
      · rintro ⟨rfl, rfl⟩
        exact ⟨rfl, rfl⟩
      · rintro ⟨above', rfl, hrest⟩
        exact ⟨above', rfl, hrest⟩

/-- The state of a search with some work to do, some vertices fresh and some left. -/
structure Searching (graph : Digraph) (work : List Visit) (fresh : VertexSet) (left : List Nat) :
    Prop where
  nodup : (opened work ++ left).Nodup
  stale : ∀ v ∈ opened work ++ left, v ∉ fresh ∧ v ∈ graph.vertices
  met : ∀ v ∈ graph.vertices, v ∈ fresh ∨ v ∈ opened work ++ left
  awaited : ∀ v ∈ fresh, v ∈ graph.vertices ∧ .enter v ∈ work
  loopless : ∀ v ∈ opened work ++ left, v ∉ graph.next v
  /-- An open vertex leads to whatever is worked on before it is left. -/
  within : work.Pairwise fun task below => ∀ v, below = .leave v → Reaches graph.next v task.vertex
  /-- The successors of an open vertex are worked on before it is left, or were left, or lead
  back to it. -/
  pending : ∀ above v below, work = above ++ .leave v :: below → ∀ w ∈ graph.next v,
    w ∈ graph.vertices → w ∈ above.map Visit.vertex ∨ w ∈ left ∨ Reaches graph.next w v
  /-- The successors of a vertex were left before it, or lead back to it. -/
  done : ∀ later v earlier, left = later ++ v :: earlier → ∀ w ∈ graph.next v,
    w ∈ graph.vertices → w ∈ earlier ∨ Reaches graph.next w v

namespace Searching

theorem start : graph.Searching (graph.vertices.map .enter) graph.vertexSet [] := by
  have henters : opened (graph.vertices.map .enter ++ []) = opened [] :=
    opened_enters graph.vertices
  have hnone : opened (graph.vertices.map .enter) = [] := by simpa using henters
  have hleave : ∀ v, Visit.leave v ∉ graph.vertices.map Visit.enter := by simp
  refine ⟨by simp [hnone], by simp [hnone], fun v hv => .inl (mem_vertexSet.2 hv), ?_,
    by simp [hnone], ?_, ?_, ?_⟩
  · intro v hv
    have hmem := mem_vertexSet.1 hv
    exact ⟨hmem, List.mem_map_of_mem hmem⟩
  · rw [List.pairwise_iff_forall_sublist]
    rintro task _ hsub v rfl
    exact absurd (hsub.subset (List.mem_cons_of_mem task List.mem_cons_self)) (hleave v)
  · intro above v below heq
    exact absurd (heq ▸ List.mem_append_right above List.mem_cons_self) (hleave v)
  · intro later v earlier heq
    simp at heq

theorem leave (h : graph.Searching (.leave v :: rest) fresh left) :
    graph.Searching rest fresh (v :: left) := by
  have hmem : ∀ w, w ∈ opened rest ++ v :: left ↔ w ∈ opened (.leave v :: rest) ++ left := by
    intro w
    simp only [opened_leave, List.mem_append, List.mem_cons]
    tauto
  obtain ⟨hfirst, hwithin⟩ := List.pairwise_cons.1 h.within
  refine ⟨?_, ?_, ?_, ?_, ?_, hwithin, ?_, ?_⟩
  · have hnodup := h.nodup
    rwa [opened_leave, List.cons_append, ← List.nodup_middle] at hnodup
  · intro w hw
    exact h.stale w ((hmem w).1 hw)
  · intro w hw
    exact (h.met w hw).imp_right (hmem w).2
  · intro w hw
    obtain ⟨hvertex, hwork⟩ := h.awaited w hw
    exact ⟨hvertex, by simpa using hwork⟩
  · intro w hw
    exact h.loopless w ((hmem w).1 hw)
  · intro above u below heq w hw hvertex
    have hcases := h.pending (.leave v :: above) u below (congrArg (.leave v :: ·) heq) w hw hvertex
    simp only [List.map_cons, Visit.vertex, List.mem_cons] at hcases ⊢
    tauto
  · intro later u earlier heq w hw hvertex
    cases later with
    | nil =>
      obtain ⟨rfl, rfl⟩ := List.cons.inj heq
      simpa using h.pending [] v rest rfl w hw hvertex
    | cons x later => exact h.done later u earlier (List.cons.inj heq).2 w hw hvertex

theorem skip (h : graph.Searching (.enter v :: rest) fresh left) (hv : v ∉ fresh) :
    graph.Searching rest fresh left := by
  obtain ⟨hfirst, hwithin⟩ := List.pairwise_cons.1 h.within
  refine ⟨h.nodup, h.stale, h.met, ?_, h.loopless, hwithin, ?_, h.done⟩
  · intro w hw
    obtain ⟨hvertex, hwork⟩ := h.awaited w hw
    refine ⟨hvertex, ?_⟩
    rcases List.mem_cons.1 hwork with heq | hwork
    · cases heq
      exact absurd hw hv
    · exact hwork
  · intro above u below heq w hw hvertex
    have hcases := h.pending (.enter v :: above) u below (congrArg (.enter v :: ·) heq) w hw hvertex
    simp only [List.map_cons, Visit.vertex, List.mem_cons] at hcases
    rcases hcases with (rfl | habove) | hrest
    · have hstale := (h.met w hvertex).resolve_left hv
      rw [opened_enter, List.mem_append, mem_opened, heq] at hstale
      rcases hstale with hopen | hleft
      · rcases List.mem_append.1 hopen with habove | hbelow
        · exact .inl (List.mem_map.2 ⟨_, habove, rfl⟩)
        · rcases List.mem_cons.1 hbelow with hsame | hbelow
          · cases hsame
            exact .inr (.inr .refl)
          · rw [heq] at hwithin
            have hopened := (List.pairwise_append.1 hwithin).2.1
            exact .inr (.inr ((List.pairwise_cons.1 hopened).1 _ hbelow w rfl))
      · exact .inr (.inl hleft)
    · exact .inl habove
    · exact .inr hrest

theorem enter (h : graph.Searching (.enter v :: rest) fresh left) (hv : v ∈ fresh)
    (hself : v ∉ graph.next v) :
    graph.Searching ((graph.next v).map .enter ++ .leave v :: rest) (fresh.erase v) left := by
  have hopened : opened ((graph.next v).map .enter ++ .leave v :: rest) = v :: opened rest := by
    simp
  have hstale : ∀ w ∈ opened rest ++ left, w ∉ fresh ∧ w ∈ graph.vertices := h.stale
  obtain ⟨hfirst, hwithin⟩ := List.pairwise_cons.1 h.within
  refine ⟨?_, ?_, ?_, ?_, ?_, ?_, ?_, h.done⟩
  · rw [hopened, List.cons_append, List.nodup_cons]
    exact ⟨fun hmem => (hstale v hmem).1 hv, h.nodup⟩
  · intro w hw
    rw [hopened, List.cons_append] at hw
    rcases List.mem_cons.1 hw with rfl | hw
    · exact ⟨fun hmem => (VertexSet.mem_erase.1 hmem).1 rfl, (h.awaited w hv).1⟩
    · obtain ⟨hfresh, hvertex⟩ := hstale w hw
      exact ⟨fun hmem => hfresh (VertexSet.mem_erase.1 hmem).2, hvertex⟩
  · intro w hw
    rw [hopened, List.cons_append, VertexSet.mem_erase, List.mem_cons]
    have hmet := h.met w hw
    rw [opened_enter] at hmet
    tauto
  · intro w hw
    obtain ⟨hne, hfresh⟩ := VertexSet.mem_erase.1 hw
    obtain ⟨hvertex, hwork⟩ := h.awaited w hfresh
    refine ⟨hvertex, List.mem_append_right _ (List.mem_cons_of_mem _ ?_)⟩
    exact (List.mem_cons.1 hwork).resolve_left fun heq => hne (by cases heq; rfl)
  · intro w hw
    rw [hopened, List.cons_append] at hw
    rcases List.mem_cons.1 hw with rfl | hw
    · exact hself
    · exact h.loopless w hw
  · refine List.pairwise_append.2 ⟨?_, List.pairwise_cons.2 ⟨hfirst, hwithin⟩, ?_⟩
    · rw [List.pairwise_iff_forall_sublist]
      rintro task _ hsub u rfl
      have hmem := hsub.subset (List.mem_cons_of_mem task List.mem_cons_self)
      simp at hmem
    · intro task htask below hbelow u heq
      obtain ⟨w, hw, rfl⟩ := List.mem_map.1 htask
      rcases List.mem_cons.1 hbelow with rfl | hbelow
      · cases heq
        exact .single hw
      · exact (hfirst below hbelow u heq).tail hw
  · intro above u below heq w hw hvertex
    rcases eq_of_enters_append heq with ⟨rfl, rfl⟩ | ⟨above', rfl, hrest⟩
    · exact .inl (by simpa [Visit.vertex] using hw)
    · have hcases :=
        h.pending (.enter v :: above') u below (congrArg (.enter v :: ·) hrest) w hw hvertex
      simp only [List.map_append, List.map_cons, Visit.vertex, List.mem_append,
        List.mem_cons] at hcases ⊢
      tauto

end Searching

/-- A search either meets a vertex with an edge to itself, or ends with all work done. -/
theorem visit_spec (h : graph.Searching work fresh left) :
    match graph.visit work fresh left with
    | .ok order => ∃ none, graph.Searching [] none order
    | .error v => v ∈ graph.next v ∧ v ∈ graph.vertices := by
  fun_induction visit graph work fresh left with
  | case1 fresh left => exact ⟨fresh, h⟩
  | case2 fresh left v rest ih => exact ih h.leave
  | case3 fresh left v rest hv hself => exact ⟨hself, (h.awaited v hv).1⟩
  | case4 fresh left v rest hv hself ih => exact ih (h.enter hv hself)
  | case5 fresh left v rest hv ih => exact ih (h.skip hv)

end Downset.Digraph
