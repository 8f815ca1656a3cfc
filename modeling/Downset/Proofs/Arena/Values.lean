import Downset.Proofs.Arena.Consistent

/-!
# Changing values only

Putting a value and forgetting all values leave the shape of an arena as it is: its slots, what
is remembered of keys passed over, and the kind, the key and the links of each node. What is
consistent and what was met depend on the shape alone.
-/

namespace Downset.Arena

variable {K V : Type} {arena after : Arena K V} {id n : NodeId}

/-- Two arenas that differ in the values of their nodes only. -/
structure SameShape (arena after : Arena K V) : Prop extends SameNodes arena after where
  above : ∀ n, (after.node n).above = (arena.node n).above
  below : ∀ n, (after.node n).below = (arena.node n).below

theorem sameShape_clear (arena : Arena K V) : SameShape arena (arena.mapNodes Node.clear) where
  size := Array.size_map
  slots := rfl
  skipped := rfl
  kind n := by rw [node_mapNodes rfl, Node.kind_clear]
  key? n := by rw [node_mapNodes rfl, Node.key?_clear]
  above n := by rw [node_mapNodes rfl, Node.above_clear]
  below n := by rw [node_mapNodes rfl, Node.below_clear]

theorem values_clear : ((arena.mapNodes Node.clear).node n).values = ∅ := by
  rw [node_mapNodes rfl, Node.values_clear]

section Accept

variable [DecidableEq V] {value other : V}

theorem node_accept : (arena.modify id (·.accept value)).node n =
    if n = id then (arena.node n).accept value else arena.node n :=
  node_modify rfl

theorem sameShape_accept (arena : Arena K V) (id : NodeId) (value : V) :
    SameShape arena (arena.modify id (·.accept value)) where
  size := Array.size_modify
  slots := rfl
  skipped := rfl
  kind n := by rw [node_accept]; split <;> simp
  key? n := by rw [node_accept]; split <;> simp
  above n := by rw [node_accept]; split <;> simp
  below n := by rw [node_accept]; split <;> simp

theorem mem_values_accept :
    other ∈ ((arena.modify id (·.accept value)).node n).values ↔
      other ∈ (arena.node n).values ∨
        (n = id ∧ (arena.node n).kind ≠ .sink ∧ other = value) := by
  rw [node_accept]
  by_cases hn : n = id
  · rw [if_pos hn, Node.mem_values_accept]
    simp only [hn, true_and]
  · rw [if_neg hn]
    simp only [hn, false_and, or_false]

end Accept

variable [DecidableEq K] {order : KeyOrder K} {filter : KeyFilter K} {dropped : K → K → Prop}
  {path : List K}

theorem SameShape.consistent (hshape : SameShape arena after)
    (h : Consistent order filter dropped path arena) :
    Consistent order filter dropped path after := by
  have habove : ∀ n m, m ∈ (after.node n).above → m ∈ (arena.node n).above := by
    intro n m ha
    rwa [hshape.above] at ha
  refine ⟨?_, ?_, ?_, ?_, ?_, ?_⟩
  · apply hshape.wellFormed h.toWellFormed
    · intro n m ha
      exact h.kind_above (habove n m ha)
    · intro n m
      rw [hshape.above, hshape.below]
      exact h.mirror
  · intro key n hkey hslot m
    rw [hshape.slots] at hslot
    rw [hshape.below]
    exact h.no_lower hkey hslot m
  · obtain ⟨rank, hrank⟩ := h.ranked
    exact ⟨rank, fun n m ha => hrank n m (habove n m ha)⟩
  · intro n m key other ha hkey hother
    rw [hshape.key?] at hkey hother
    exact h.nearest (habove n m ha) hkey hother
  · intro key found hfound
    rw [hshape.skipped] at hfound
    obtain ⟨hsound, hcomplete⟩ := h.remembered hfound
    constructor <;> simpa only [hshape.slots]
  · intro key n other hsafe hpath hslot hother
    rw [hshape.slots] at hslot ⊢
    obtain ⟨m, hm, hlink⟩ := h.linked hsafe hpath hslot hother
    rw [← hshape.above] at hlink
    exact ⟨m, hm, hlink⟩

end Downset.Arena
