import Downset.Proofs.Arena.Flow

/-!
# Dropping bridged links

All links that a query node bridges are chosen on the arena as it is and then dropped
together. What was consistent stays so, with the links to bridged nearest keys allowed to be
missing.
-/

namespace Downset.Arena

variable {K V : Type} {arena : Arena K V} {n m : NodeId} {pairs : List (NodeId × NodeId)}

def unlinkAll (arena : Arena K V) (pairs : List (NodeId × NodeId)) : Arena K V :=
  pairs.foldl (fun arena pair => arena.unlink pair.1 pair.2) arena

theorem unlinkAll_cons {pair : NodeId × NodeId} :
    arena.unlinkAll (pair :: pairs) = (arena.unlink pair.1 pair.2).unlinkAll pairs := rfl

theorem kind_unlinkAll : ((arena.unlinkAll pairs).node n).kind = (arena.node n).kind := by
  induction pairs generalizing arena with
  | nil => rfl
  | cons pair pairs ih => rw [unlinkAll_cons, ih, kind_unlink]

theorem key?_unlinkAll : ((arena.unlinkAll pairs).node n).key? = (arena.node n).key? := by
  induction pairs generalizing arena with
  | nil => rfl
  | cons pair pairs ih => rw [unlinkAll_cons, ih, key?_unlink]

theorem values_unlinkAll : ((arena.unlinkAll pairs).node n).values = (arena.node n).values := by
  induction pairs generalizing arena with
  | nil => rfl
  | cons pair pairs ih => rw [unlinkAll_cons, ih, values_unlink]

theorem dropTransitive_eq : arena.dropTransitive = arena.unlinkAll arena.redundantLinks := rfl

theorem mem_above_unlinkAll :
    m ∈ ((arena.unlinkAll pairs).node n).above ↔ m ∈ (arena.node n).above ∧ (n, m) ∉ pairs := by
  induction pairs generalizing arena with
  | nil => simp [unlinkAll]
  | cons pair pairs ih =>
    rw [unlinkAll_cons, ih, mem_above_unlink, List.mem_cons, not_or, Prod.ext_iff, and_assoc]

theorem mem_below_unlinkAll :
    n ∈ ((arena.unlinkAll pairs).node m).below ↔ n ∈ (arena.node m).below ∧ (n, m) ∉ pairs := by
  induction pairs generalizing arena with
  | nil => simp [unlinkAll]
  | cons pair pairs ih =>
    rw [unlinkAll_cons, ih, mem_below_unlink, List.mem_cons, not_or, Prod.ext_iff, and_assoc,
      and_comm (a := m = pair.2)]

theorem size_unlinkAll : (arena.unlinkAll pairs).nodes.size = arena.nodes.size := by
  induction pairs generalizing arena with
  | nil => rfl
  | cons pair pairs ih =>
    rw [unlinkAll_cons, ih]
    simp [unlink, modify]

theorem slots_unlinkAll : (arena.unlinkAll pairs).slots = arena.slots := by
  induction pairs generalizing arena with
  | nil => rfl
  | cons pair pairs ih => exact ih

theorem skipped_unlinkAll : (arena.unlinkAll pairs).skipped = arena.skipped := by
  induction pairs generalizing arena with
  | nil => rfl
  | cons pair pairs ih => exact ih

theorem sameNodes_unlinkAll : SameNodes arena (arena.unlinkAll pairs) :=
  ⟨size_unlinkAll, slots_unlinkAll, skipped_unlinkAll, fun _ => kind_unlinkAll,
    fun _ => key?_unlinkAll⟩

theorem mem_redundantLinks_iff :
    (n, m) ∈ arena.redundantLinks ↔ m ∈ (arena.node n).above ∧
      ∃ middle ∈ arena.ids, n ∈ (arena.node middle).below ∧ m ∈ (arena.node middle).above ∧
        n ≠ middle ∧ m ≠ middle := by
  simp only [redundantLinks, bridgedBy, List.mem_flatMap, List.mem_map, List.mem_filter,
    decide_eq_true_eq, Prod.mk.injEq]
  constructor
  · rintro ⟨middle, hid, lower, hlower, upper, ⟨hupper, hne, hne', hlink⟩, rfl, rfl⟩
    exact ⟨hlink, middle, hid, hlower, hupper, hne, hne'⟩
  · rintro ⟨hlink, middle, hid, hlower, hupper, hne, hne'⟩
    exact ⟨middle, hid, n, hlower, m, ⟨hupper, hne, hne', hlink⟩, rfl, rfl⟩

variable [DecidableEq K] {order : KeyOrder K} {filter : KeyFilter K}

theorem WellFormed.unlinkAll (h : arena.WellFormed filter) :
    (arena.unlinkAll pairs).WellFormed filter := by
  apply sameNodes_unlinkAll.wellFormed h
  · intro n m ha
    exact h.kind_above (mem_above_unlinkAll.1 ha).1
  · intro n m
    rw [mem_above_unlinkAll, mem_below_unlinkAll, h.mirror]

/-- The links that are dropped are just those that two other links replace. -/
theorem Consistent.mem_above_dropTransitive {dropped : K → K → Prop} {path : List K}
    (h : Consistent order filter dropped path arena) :
    m ∈ (arena.dropTransitive.node n).above ↔ m ∈ (arena.node n).above ∧
      ¬ ∃ middle ∈ (arena.node n).above, m ∈ (arena.node middle).above := by
  rw [dropTransitive_eq, mem_above_unlinkAll, mem_redundantLinks_iff]
  refine and_congr_right fun hlink => not_congr ⟨?_, ?_⟩
  · rintro ⟨_, middle, _, hlower, hupper, _⟩
    exact ⟨middle, h.mirror.2 hlower, hupper⟩
  · rintro ⟨middle, hlower, hupper⟩
    have hid := mem_ids (kind_ne_sink_of_mem_above hupper)
    refine ⟨hlink, middle, hid, h.mirror.1 hlower, hupper, ?_, ?_⟩
    · rintro rfl
      exact h.not_onCycle (.single hlower)
    · rintro rfl
      exact h.not_onCycle (.single hupper)

/-- Dropping the redundant links of an arena without leaves keeps it consistent, but for links
to nearest keys that are bridged. -/
theorem Consistent.dropTransitive (h : Consistent order filter (fun _ _ => False) [] arena)
    (hleaf : ∀ n, (arena.node n).kind ≠ .leaf) :
    Consistent order filter (order.Bridged filter) [] arena.dropTransitive := by
  rw [dropTransitive_eq]
  refine ⟨h.toWellFormed.unlinkAll, fun hmem => absurd hmem List.not_mem_nil, ?_, ?_, ?_, ?_⟩
  · obtain ⟨rank, hrank⟩ := h.ranked
    exact ⟨rank, fun n m ha => hrank n m (mem_above_unlinkAll.1 ha).1⟩
  · intro n m key other ha hkey hother
    rw [key?_unlinkAll] at hkey hother
    exact h.nearest (mem_above_unlinkAll.1 ha).1 hkey hother
  · intro key found hfound
    rw [skipped_unlinkAll] at hfound
    obtain ⟨hsound, hcomplete⟩ := h.remembered hfound
    constructor <;> simpa only [slots_unlinkAll]
  · intro key n other hsafe hpath hslot hother
    rw [slots_unlinkAll] at hslot ⊢
    obtain ⟨m, hm, ha | ⟨_, hfalse⟩⟩ := h.linked hsafe hpath hslot hother
    · by_cases hdrop : (n, m) ∈ arena.redundantLinks
      · obtain ⟨_, middle, _, hlower, hupper, _⟩ := mem_redundantLinks_iff.1 hdrop
        have hkind := kind_ne_sink_of_mem_above ha
        have hn : (arena.node n).kind = .query := by
          cases hk : (arena.node n).kind with
          | query => rfl
          | leaf => exact absurd hk (hleaf n)
          | sink => exact absurd hk hkind
        have hkey := h.key_of_slot hslot (h.ne_sink hkind)
        have hm' := h.key_of_accepts hm hother.accepted
        obtain ⟨third, hthird, _, _⟩ := h.exists_key_above (h.mirror.2 hlower)
        exact ⟨m, hm, .inr ⟨(h.query_iff hslot).1 hn, third, h.nearest (h.mirror.2 hlower) hkey hthird,
          h.nearest hupper hthird hm'⟩⟩
      · exact ⟨m, hm, .inl (mem_above_unlinkAll.2 ⟨ha, hdrop⟩)⟩
    · exact absurd hfalse id

end Downset.Arena
