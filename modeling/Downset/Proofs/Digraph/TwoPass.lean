import Downset.Proofs.Digraph.Topological

/-!
# Sorting in two passes

A graph is built edge by edge, and the edges at a vertex are seen latest first. The first pass
searches from each vertex in turn with a stack on which a vertex may wait several times. The vertex
on top is entered if it is fresh: it stays, and the fresh ends of its edges are put above it. If it
is not fresh it is taken off, and it is finished if it was not finished before. The second pass
takes the vertices in the reverse of the order in which they were finished, and searches backward
along the edges from each, past vertices that are still fresh. If one of these searches enters a
second vertex, then that vertex lies on a cycle; otherwise the vertices are sorted.

The topological order of a graph is what the two passes find.
-/

namespace Downset.Digraph

/-- The edges in the order in which they are added: vertex by vertex, and for each vertex in the
order of its list. -/
def edges (graph : Digraph) : List (Nat × Nat) :=
  graph.vertices.flatMap fun u => (graph.next u).map (u, ·)

/-- The ends of the edges out of a vertex, the latest edge first. -/
def outgoing (graph : Digraph) (u : Nat) : List Nat :=
  ((graph.edges.filter fun edge => edge.1 = u).map Prod.snd).reverse

/-- The starts of the edges into a vertex, the latest edge first. -/
def incoming (graph : Digraph) (v : Nat) : List Nat :=
  ((graph.edges.filter fun edge => edge.2 = v).map Prod.fst).reverse

def push (fresh : VertexSet) (stack : List Nat) (vs : List Nat) : List Nat :=
  vs.foldl (fun stack v => if v ∈ fresh then v :: stack else stack) stack

/-- The first pass from a stack: what is fresh afterwards, and what is finished, latest first; or a
vertex with an edge to itself. -/
def finish (graph : Digraph) (stack : List Nat) (fresh : VertexSet) (finished : List Nat) :
    Except Nat (VertexSet × List Nat) :=
  match stack with
  | [] => .ok (fresh, finished)
  | v :: rest =>
    if _ : v ∈ fresh then
      if v ∈ graph.outgoing v then .error v
      else
        graph.finish (push (fresh.erase v) (v :: rest) (graph.outgoing v)) (fresh.erase v) finished
    else graph.finish rest fresh (if v ∈ finished then finished else v :: finished)
termination_by (fresh.size, stack.length)
decreasing_by
  · exact .left _ _ (VertexSet.size_erase_lt ‹_›)
  · exact .right _ (Nat.lt_succ_self _)

def finishAll (graph : Digraph) (fresh : VertexSet) (finished : List Nat) :
    List Nat → Except Nat (List Nat)
  | [] => .ok finished
  | root :: rest =>
    if root ∈ fresh then do
      let (fresh, finished) ← graph.finish [root] fresh finished
      graph.finishAll fresh finished rest
    else graph.finishAll fresh finished rest

/-- The vertices that a search backward from a stack enters, in their order, and what is fresh
afterwards. -/
def retrace (graph : Digraph) (stack : List Nat) (fresh : VertexSet) : List Nat × VertexSet :=
  match stack with
  | [] => ([], fresh)
  | v :: rest =>
    if _ : v ∈ fresh then
      let (entered, after) :=
        graph.retrace (push (fresh.erase v) rest (graph.incoming v)) (fresh.erase v)
      (v :: entered, after)
    else graph.retrace rest fresh
termination_by (fresh.size, stack.length)
decreasing_by
  · exact .left _ _ (VertexSet.size_erase_lt ‹_›)
  · exact .right _ (Nat.lt_succ_self _)

/-- The second pass: a search backward from each vertex of a list in turn may enter no other. -/
def confirm (graph : Digraph) (fresh : VertexSet) : List Nat → Except Nat Unit
  | [] => .ok ()
  | root :: rest =>
    match graph.retrace [root] fresh with
    | (_ :: v :: _, _) => .error v
    | (_, fresh) => graph.confirm fresh rest

def twoPassOrder (graph : Digraph) : Except Nat (List Nat) := do
  let order ← graph.finishAll graph.vertexSet [] graph.vertices
  graph.confirm graph.vertexSet order
  return order

variable {graph : Digraph} {u v : Nat} {fresh : VertexSet} {stack order : List Nat}

theorem push_eq (vs : List Nat) :
    push fresh stack vs = (vs.reverse.filter fun v => v ∈ fresh) ++ stack := by
  induction vs generalizing stack with
  | nil => rfl
  | cons v vs ih =>
    change push fresh (if v ∈ fresh then v :: stack else stack) vs = _
    rw [ih, List.reverse_cons, List.filter_append, List.append_assoc]
    by_cases hv : v ∈ fresh <;> simp [hv]

section Edges

theorem reverse_outgoing : (graph.outgoing u).reverse = graph.next u := by
  have hrows : ∀ vs : List Nat, vs.Nodup →
      vs.flatMap (fun w => if w = u then graph.next w else []) =
        if u ∈ vs then graph.next u else [] := by
    intro vs hnodup
    induction vs with
    | nil => rfl
    | cons w vs ih =>
      obtain ⟨hw, hvs⟩ := List.nodup_cons.1 hnodup
      rw [List.flatMap_cons, ih hvs]
      by_cases hwu : w = u
      · subst hwu
        simp [hw]
      · simp [hwu, Ne.symm hwu]
  have hout : graph.outgoing u = (graph.vertices.flatMap fun w =>
      if w = u then graph.next w else []).reverse := by
    rw [outgoing, edges, List.filter_flatMap, List.map_flatMap]
    congr 2
    funext w
    by_cases hwu : w = u <;> simp [List.filter_map, Function.comp_def, hwu]
  rw [hout, List.reverse_reverse, hrows graph.vertices List.nodup_range]
  by_cases hu : u ∈ graph.vertices
  · exact if_pos hu
  · rw [List.eq_nil_iff_forall_not_mem.2 fun v hv => hu (mem_vertices_of_mem_next hv), ite_self]

theorem mem_outgoing : v ∈ graph.outgoing u ↔ v ∈ graph.next u := by
  rw [← reverse_outgoing, List.mem_reverse]

theorem find?_reverse_incoming (p : Nat → Bool) :
    (graph.incoming v).reverse.find? p =
      graph.vertices.find? fun u => p u && v ∈ graph.next u := by
  have hrow : ∀ u (vs : List Nat),
      (((vs.map (u, ·)).filter fun edge => edge.2 = v).map Prod.fst).find? p =
        Option.guard (fun u => p u && v ∈ vs) u := by
    intro u vs
    induction vs with
    | nil => simp
    | cons w vs ih =>
      by_cases hwv : w = v
      · cases hp : p u <;> simp_all [Option.guard]
      · have hne : v ≠ w := Ne.symm hwv
        simpa [hwv, hne] using ih
  rw [incoming, List.reverse_reverse, edges, List.filter_flatMap, List.map_flatMap,
    List.find?_flatMap, List.find?_eq_findSome?_guard]
  exact congrArg (List.findSome? · graph.vertices) (funext fun u => hrow u (graph.next u))

end Edges

/-- The work of a search together with the stack that a first pass has in its place, where those
below are finished when it is reached. A vertex to enter may be missing from the stack if it is no
longer fresh; one that waits there is fresh, or is finished before its turn. -/
inductive Stacked (fresh : VertexSet) : List Nat → List Visit → List Nat → Prop
  | nil {finished : List Nat} : Stacked fresh finished [] []
  | keep {v : Nat} {finished stack : List Nat} {work : List Visit}
      (isMet : v ∈ fresh ∨ v ∈ finished) (rest : Stacked fresh finished work stack) :
      Stacked fresh finished (.enter v :: work) (v :: stack)
  | drop {v : Nat} {finished stack : List Nat} {work : List Visit}
      (isStale : v ∉ fresh) (rest : Stacked fresh finished work stack) :
      Stacked fresh finished (.enter v :: work) stack
  | leave {v : Nat} {finished stack : List Nat} {work : List Visit}
      (isStale : v ∉ fresh) (isOpen : v ∉ finished)
      (rest : Stacked fresh (v :: finished) work stack) :
      Stacked fresh finished (.leave v :: work) (v :: stack)

namespace Stacked

variable {less : VertexSet} {finished finished' : List Nat} {work more : List Visit}

theorem mono (h : Stacked fresh finished work stack) (hless : ∀ w ∈ less, w ∈ fresh)
    (hmet : ∀ w, w ∈ fresh ∨ w ∈ finished → w ∈ less ∨ w ∈ finished')
    (hopen : ∀ w, w ∉ fresh → w ∉ finished → w ∉ finished') :
    Stacked less finished' work stack := by
  induction h generalizing finished' with
  | nil => exact .nil
  | keep hw _ ih => exact .keep (hmet _ hw) (ih hmet hopen)
  | drop hw _ ih => exact .drop (fun hmem => hw (hless _ hmem)) (ih hmet hopen)
  | @leave v finished stack work hw hnot _ ih =>
    refine .leave (fun hmem => hw (hless _ hmem)) (hopen v hw hnot) (ih ?_ ?_)
    · intro w hor
      by_cases heq : w = v
      · exact .inr (heq ▸ List.mem_cons_self)
      · exact (hmet w (hor.imp_right fun hmem => (List.mem_cons.1 hmem).resolve_left heq)).imp_right
          (List.mem_cons_of_mem v)
    · intro w hfresh hmem
      obtain ⟨hne, hmem⟩ := not_or.1 (fun hor => hmem (List.mem_cons.2 hor))
      exact fun hcons => hopen w hfresh hmem ((List.mem_cons.1 hcons).resolve_left hne)

theorem erase (h : Stacked fresh finished work stack) (hv : v ∈ fresh) :
    Stacked (fresh.erase v) (v :: finished) work stack := by
  refine h.mono (fun w hw => (VertexSet.mem_erase.1 hw).2) ?_ ?_
  · intro w hor
    by_cases heq : w = v
    · exact .inr (heq ▸ List.mem_cons_self)
    · exact hor.imp (fun hw => VertexSet.mem_erase.2 ⟨heq, hw⟩) (List.mem_cons_of_mem v)
  · intro w hfresh hmem hcons
    rcases List.mem_cons.1 hcons with rfl | hcons
    · exact hfresh hv
    · exact hmem hcons

theorem enters (h : Stacked fresh finished work stack) (vs : List Nat) :
    Stacked fresh finished (vs.map .enter ++ work) ((vs.filter fun v => v ∈ fresh) ++ stack) := by
  induction vs with
  | nil => exact h
  | cons v vs ih =>
    by_cases hv : v ∈ fresh
    · simpa [hv] using ih.keep (.inl hv)
    · simpa [hv] using ih.drop hv

/-- Both go through the graph in the same way. -/
theorem visit_append (h : Stacked fresh finished work stack) (hstale : ∀ v ∈ finished, v ∉ fresh) :
    graph.visit (work ++ more) fresh finished =
      (graph.finish stack fresh finished).bind fun s => graph.visit more s.1 s.2 := by
  induction work, fresh, finished using visit.induct graph generalizing stack with
  | case1 fresh finished =>
    cases h
    rw [finish]
    rfl
  | case2 fresh finished v rest ih =>
    cases h with
    | leave hv hopen hrest =>
      rw [List.cons_append, visit, finish, dif_neg hv, if_neg hopen]
      refine ih hrest fun w hw => ?_
      rcases List.mem_cons.1 hw with rfl | hw
      · exact hv
      · exact hstale w hw
  | case3 fresh finished v rest hv hself =>
    cases h with
    | drop hnot => exact absurd hv hnot
    | keep _ hrest =>
      rw [List.cons_append, visit, finish, dif_pos hv, dif_pos hv, if_pos hself,
        if_pos (mem_outgoing.2 hself)]
      rfl
  | case4 fresh finished v rest hv hself ih =>
    cases h with
    | drop hnot => exact absurd hv hnot
    | @keep _ _ stack _ _ hrest =>
      have hnot : v ∉ fresh.erase v := fun hmem => (VertexSet.mem_erase.1 hmem).1 rfl
      have hopen : Stacked (fresh.erase v) finished (.leave v :: rest) (v :: stack) :=
        .leave hnot (fun hmem => hstale v hmem hv) (hrest.erase hv)
      have hless : ∀ w ∈ finished, w ∉ fresh.erase v := fun w hw hmem =>
        hstale w hw (VertexSet.mem_erase.1 hmem).2
      rw [List.cons_append, visit, finish, dif_pos hv, dif_pos hv, if_neg hself,
        if_neg fun hmem => hself (mem_outgoing.1 hmem), push_eq, reverse_outgoing,
        ← ih (hopen.enters _) hless]
      simp
  | case5 fresh finished v rest hv ih =>
    rw [List.cons_append, visit, dif_neg hv]
    cases h with
    | drop _ hrest => exact ih hrest hstale
    | keep hmet hrest =>
      rw [finish, dif_neg hv, if_pos (hmet.resolve_left hv)]
      exact ih hrest hstale

end Stacked

theorem stale_of_finish {less : VertexSet} {finished finished' : List Nat}
    (h : graph.finish stack fresh finished = .ok (less, finished'))
    (hstale : ∀ v ∈ finished, v ∉ fresh) : ∀ v ∈ finished', v ∉ less := by
  fun_induction finish graph stack fresh finished with
  | case1 fresh finished =>
    cases h
    exact hstale
  | case2 => cases h
  | case3 fresh finished v rest hv hself ih =>
    exact ih h fun w hw hmem => hstale w hw (VertexSet.mem_erase.1 hmem).2
  | case4 fresh finished v rest hv ih =>
    refine ih h fun w hw => ?_
    split at hw
    · exact hstale w hw
    · rcases List.mem_cons.1 hw with rfl | hw
      · exact hv
      · exact hstale w hw

/-- The first pass finishes the vertices in the order in which a search leaves them. -/
theorem finishAll_eq_visit {finished : List Nat} (roots : List Nat)
    (hstale : ∀ v ∈ finished, v ∉ fresh) :
    graph.finishAll fresh finished roots = graph.visit (roots.map .enter) fresh finished := by
  induction roots generalizing fresh finished with
  | nil => rw [finishAll, List.map_nil, visit]
  | cons root roots ih =>
    rw [finishAll, List.map_cons]
    split
    · next hroot =>
      have hwait : Stacked fresh finished [.enter root] [root] := .keep (.inl hroot) .nil
      rw [← List.singleton_append (x := Visit.enter root), hwait.visit_append hstale]
      cases hfinish : graph.finish [root] fresh finished with
      | error v => rfl
      | ok state => exact ih (stale_of_finish hfinish hstale)
    · next hroot => rw [visit, dif_neg hroot, ih hstale]

theorem finishAll_vertices : graph.finishAll graph.vertexSet [] graph.vertices = graph.leaveOrder :=
  finishAll_eq_visit graph.vertices (by simp)

/-- A search backward enters a second vertex if and only if an edge leads to its root from a vertex
that is still fresh. -/
theorem confirm_eq (hnodup : order.Nodup) (hfresh : ∀ v ∈ order, v ∈ fresh) :
    graph.confirm fresh order =
      match graph.outOfPlace? fresh order with
      | some v => .error v
      | none => .ok () := by
  induction order generalizing fresh with
  | nil => rfl
  | cons root order ih =>
    obtain ⟨hroot, hnodup⟩ := List.nodup_cons.1 hnodup
    have hrest : ∀ v ∈ order, v ∈ fresh.erase root := fun v hv =>
      VertexSet.mem_erase.2 ⟨fun heq => hroot (heq ▸ hv), hfresh v (List.mem_cons_of_mem root hv)⟩
    have hfirst : (push (fresh.erase root) [] (graph.incoming root)).head? =
        graph.vertices.find? fun u => u ∈ fresh.erase root && root ∈ graph.next u := by
      rw [push_eq, List.append_nil, List.head?_filter, find?_reverse_incoming]
    have hentered : graph.retrace [root] fresh =
        let (entered, after) :=
          graph.retrace (push (fresh.erase root) [] (graph.incoming root)) (fresh.erase root)
        (root :: entered, after) := by
      rw [retrace, dif_pos (hfresh root List.mem_cons_self)]
    rw [confirm, outOfPlace?, hentered, ← hfirst]
    cases hpush : push (fresh.erase root) [] (graph.incoming root) with
    | nil =>
      rw [retrace]
      exact ih hnodup hrest
    | cons u stack =>
      have hu : u ∈ fresh.erase root := by
        rw [hpush, List.head?_cons] at hfirst
        have hfound := List.find?_some hfirst.symm
        simp only [Bool.and_eq_true, decide_eq_true_eq] at hfound
        exact hfound.1
      rw [retrace, dif_pos hu]
      rfl

/-- The two passes find the topological order, or the same vertex on a cycle. -/
theorem twoPassOrder_eq (graph : Digraph) : graph.twoPassOrder = graph.topologicalOrder := by
  have hspec := visit_spec (@Searching.start graph)
  rw [twoPassOrder, topologicalOrder, finishAll_vertices]
  rw [← leaveOrder] at hspec
  cases hleave : graph.leaveOrder with
  | error v => rfl
  | ok order =>
    rw [hleave] at hspec
    obtain ⟨none, hdone⟩ := hspec
    have hnodup : order.Nodup := hdone.nodup
    have hfresh : ∀ v ∈ order, v ∈ graph.vertexSet := fun v hv =>
      mem_vertexSet.2 (hdone.mem_iff_of_finished.1 hv)
    change (graph.confirm graph.vertexSet order).bind (fun _ => .ok order) = _
    rw [confirm_eq hnodup hfresh]
    simp only [bind, Except.bind]
    cases graph.outOfPlace? graph.vertexSet order <;> rfl

end Downset.Digraph
