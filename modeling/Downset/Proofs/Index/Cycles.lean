import Downset.Proofs.Arena.Visits
import Downset.Proofs.Index.Faithful

/-!
# Cycles of the order and of the links

As long as no put has run into a cycle of the order, the next put does so exactly if it can,
whatever is in the index by then. The links between the nodes have no cycle at any time, not
even after puts that were given up half way; so looking below a node always comes to an end.
-/

namespace Downset

variable {K V α : Type} {order : KeyOrder K}

/-- An attempt fails exactly if a key is to blame for it, succeeds otherwise, and names a key
that is to blame together with the order when it fails. -/
structure Detects (order : KeyOrder K) (render : K → String) (blamed : K → Prop)
    (result : Except Fault α) : Prop where
  fails_iff : (∃ name text, result = .error (.cycleDetected name text)) ↔ ∃ key, blamed key
  succeeds : (¬ ∃ key, blamed key) → ∃ answer, result = .ok answer
  names : ∀ fault, result = .error fault →
    ∃ key, blamed key ∧ fault = .cycleDetected order.name (render key)

theorem Detects.of_ok {render : K → String} {blamed : K → Prop} {answer : α}
    (h : ∀ key, ¬ blamed key) : Detects order render blamed (.ok answer) := by
  refine ⟨⟨?_, ?_⟩, fun _ => ⟨answer, rfl⟩, fun fault hfails => by cases hfails⟩
  · rintro ⟨name, text, hfails⟩
    cases hfails
  · rintro ⟨key, hkey⟩
    exact absurd hkey (h key)

theorem Detects.of_error {render : K → String} {blamed : K → Prop} {key : K} (h : blamed key) :
    Detects order render blamed
      (.error (.cycleDetected order.name (render key)) : Except Fault α) := by
  refine ⟨⟨fun _ => ⟨key, h⟩, fun _ => ⟨_, _, rfl⟩⟩, fun hnone => absurd ⟨key, h⟩ hnone, ?_⟩
  intro fault hfails
  rw [Except.error.injEq] at hfails
  exact ⟨key, h, hfails.symm⟩

variable [DecidableEq K]

theorem Index.detects_ofKeys [Quotable K] (order : KeyOrder K) (keys : List K) :
    Detects order quote
      (fun twice => ∃ key ∈ keys, Reaches order.successors key twice ∧ OnCycle order.successors twice)
      (ofKeys order keys : Except Fault (Index K V)) := by
  rcases ofKeys_cases order keys with ⟨arena, hmade, _, hsafe⟩ | ⟨key, hkey, twice, hfails, hcycle⟩
  · rw [hmade]
    refine .of_ok ?_
    rintro twice ⟨key, hkey, hreaches, hcycle⟩
    exact hsafe key hkey twice hreaches hcycle
  · rw [hfails]
    exact .of_error ⟨key, hkey, hcycle⟩

namespace Session

variable [DecidableEq V] {index : Index K V} {s : Session K V} {filter : KeyFilter K}

theorem Faithful.detects_put (h : s.Faithful order filter) (hsmooth : s.Smooth)
    (hphase : s.index.phase = .writable) (key : K) (value : V) :
    Detects order s.index.render
      (fun twice => Reaches order.successors key twice ∧ OnCycle order.successors twice)
      (s.index.put key value).1 := by
  rcases hput : s.index.put key value with ⟨fault | _, after⟩
  · obtain ⟨⟨twice, rfl, hcycle⟩, _⟩ := h.put_error hphase hput
    exact .of_error hcycle
  · have hsafe := h.safe_of_put_ok hsmooth hput
    exact .of_ok fun twice hcycle => hsafe twice hcycle.1 hcycle.2

variable [Quotable K]

/-- A put is refused because of a cycle exactly if one lies at or above its key, as long as none
was refused so before; and an index for a list of keys is not made exactly if a cycle lies at or
above one of them. -/
theorem fails_iff_reaches_cycle (hindex : index.Initial order) (operations : List (Operation K V))
    (hsmooth : ((start index).run operations).Smooth)
    (hphase : ((start index).run operations).index.phase = .writable) (key : K) (value : V)
    (keys : List K) :
    Detects order ((start index).run operations).index.render
      (fun twice => Reaches order.successors key twice ∧ OnCycle order.successors twice)
      (((start index).run operations).index.put key value).1 ∧
    Detects order quote
      (fun twice => ∃ key ∈ keys, Reaches order.successors key twice ∧ OnCycle order.successors twice)
      (Index.ofKeys order keys : Except Fault (Index K V)) := by
  have hs := (faithful_start hindex).run operations
  exact ⟨hs.detects_put hsmooth hphase key value, Index.detects_ofKeys order keys⟩

theorem fails_iff_reaches_cycle_knot :
    let index : Index Int Nat := .ofPredicate .knot fun key => decide (key ≠ 2)
    let s := (start index).run (Operation.puts [(3, 30)])
    s.Smooth ∧ s.index.phase = .writable ∧
      (∃ name text, (s.index.put 1 10).1 = .error (.cycleDetected name text)) ∧
      ∃ name text, (Index.ofKeys .knot [3, 2] : Except Fault (Index Int Nat)) =
        .error (.cycleDetected name text) := by
  intro index s
  have hindex : index.Initial .knot := .ofPredicate fun key => decide (key ≠ 2)
  obtain ⟨_, hfaults, hphase⟩ := (faithful_start hindex).run_puts rfl [(3, 30)] fun entry hentry =>
    List.mem_singleton.1 hentry ▸ KeyOrder.safe_knot
  have hsmooth : s.Smooth := by
    intro name text hmem
    change _ ∈ ((start index).run (Operation.puts [(3, 30)])).faults at hmem
    rw [hfaults] at hmem
    exact List.not_mem_nil hmem
  obtain ⟨hput, hkeys⟩ := fails_iff_reaches_cycle hindex _ hsmooth hphase 1 10 [3, 2]
  have hcycle := KeyOrder.onCycle_knot
  exact ⟨hsmooth, hphase, hput.fails_iff.2 ⟨1, .refl, hcycle⟩,
    hkeys.fails_iff.2 ⟨1, 2, by decide, .single (by decide), hcycle⟩⟩

/-- At any time the links have no cycle. So to look below a node, and below the nodes there,
comes to an end even if nothing is remembered of the nodes that were met; and a sweep, which
does not mark the node where it starts as met, looks below each node at most once and does not
come back to its start. Every get in the readable phase has an answer. -/
theorem links_free_of_cycles (hindex : index.Initial order) (operations : List (Operation K V)) :
    let s := (start index).run operations
    (∀ n, ¬ OnCycle s.index.arena.uppers n) ∧
    WellFounded (fun lower upper => lower ∈ (s.index.arena.node upper).below) ∧
    (∀ n, (s.index.arena.aggregate n (.start s.index.caches)).stored.Nodup ∧
      n ∉ (s.index.arena.aggregate n (.start s.index.caches)).seen) ∧
    ∀ key, s.index.phase = .readable → ∃ found, (s.index.get key).1 = .ok found := by
  intro s
  have hs : s.Faithful order index.filter := (faithful_start hindex).run operations
  have hacyclic : ∀ n, ¬ OnCycle s.index.arena.uppers n := fun n => hs.consistent.not_onCycle
  refine ⟨hacyclic, hs.consistent.wellFounded_below, ?_, ?_⟩
  · intro n
    exact Arena.aggregate_once hs.consistent.mirror hacyclic s.index.caches n
  · intro key hphase
    obtain ⟨found, caches, hget, _⟩ := hs.get_answer hphase key
    exact ⟨found, congrArg Prod.fst hget⟩

theorem links_free_of_cycles_knot :
    let index : Index Int Nat := .ofPredicate .knot fun _ => true
    let s := (start index).run [.put 1 10, .put 2 20, .put 3 30, .makeReadable]
    (∀ n, ¬ OnCycle s.index.arena.uppers n) ∧ ∃ found, (s.index.get 4).1 = .ok found := by
  intro index s
  have hindex : index.Initial .knot := .ofPredicate fun _ => true
  obtain ⟨hacyclic, _, _, hget⟩ :=
    links_free_of_cycles hindex [.put 1 10, .put 2 20, .put 3 30, .makeReadable]
  exact ⟨hacyclic, hget 4 rfl⟩

end Session

end Downset
