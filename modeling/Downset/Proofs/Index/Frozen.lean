import Downset.Proofs.Index.Lasting

/-!
# Query nodes that no request changes

Once every accepted key has a slot, no walk makes a query node or links one upwards: a walk stops
at accepted keys, and all that a request can still add is a leaf with its links. So the query
nodes and the links out of them stay as they are, whatever is asked.
-/

namespace Downset

variable {K V : Type} [DecidableEq K] {order : KeyOrder K} {filter : KeyFilter K}
  {start arena after : Arena K V} {path : List K} {key : K} {found : OrderedSet NodeId}
  {lower upper n m : NodeId} {uppers : List NodeId}

namespace Arena

/-- Every accepted key has a slot, and the query nodes with the links out of them are those of
an earlier arena. -/
structure Frozen (filter : KeyFilter K) (start arena : Arena K V) : Prop where
  located : ∀ key, filter.accepts key = true → ∃ n, arena.slots.find? key = some n
  query_iff : ∀ n, (arena.node n).kind = .query ↔ (start.node n).kind = .query
  key? : ∀ n, (arena.node n).kind = .query → (arena.node n).key? = (start.node n).key?
  above_iff : ∀ n m, (arena.node n).kind = .query →
    (m ∈ (arena.node n).above ↔ m ∈ (start.node n).above)

namespace Frozen

theorem refl (h : ∀ key, filter.accepts key = true → ∃ n, arena.slots.find? key = some n) :
    Frozen filter arena arena :=
  ⟨h, fun _ => .rfl, fun _ _ => rfl, fun _ _ _ => .rfl⟩

theorem of_nodes (h : Frozen filter start arena) (hnodes : after.nodes = arena.nodes)
    (hslots : ∀ key n, arena.slots.find? key = some n → ∃ m, after.slots.find? key = some m) :
    Frozen filter start after := by
  have hnode : ∀ n, after.node n = arena.node n := fun n => by simp only [node, hnodes]
  constructor
  · intro key hkey
    obtain ⟨n, hn⟩ := h.located key hkey
    exact hslots key n hn
  all_goals simp only [hnode]
  · exact h.query_iff
  · exact h.key?
  · exact h.above_iff

theorem addDeadEnd (h : Frozen filter start arena) : Frozen filter start (arena.addDeadEnd key) := by
  refine h.of_nodes rfl fun other n hn => ?_
  simp only [Arena.addDeadEnd, Table.find?_insert]
  split
  · exact ⟨_, rfl⟩
  · exact ⟨n, hn⟩

theorem passOver (h : Frozen filter start arena) :
    Frozen filter start (arena.passOver key found) := by
  unfold Arena.passOver
  split
  · exact h.addDeadEnd
  · exact h.of_nodes rfl fun _ n hn => ⟨n, hn⟩

theorem link (h : Frozen filter start arena) (hlower : (arena.node lower).kind ≠ .query) :
    Frozen filter start (arena.link lower upper) := by
  refine ⟨h.located, ?_, ?_, ?_⟩
  · simpa using h.query_iff
  · simpa using h.key?
  · intro n m hn
    rw [kind_link] at hn
    have hne : n ≠ lower := fun heq => hlower (heq ▸ hn)
    simp [mem_above_link, hne, h.above_iff n m hn]

theorem linkAll (h : Frozen filter start arena) (hlower : (arena.node lower).kind ≠ .query) :
    Frozen filter start (arena.linkAll lower uppers) := by
  induction uppers generalizing arena with
  | nil => exact h
  | cons upper uppers ih => exact ih (h.link hlower) (by simpa using hlower)

theorem addLeaf (h : Frozen filter start arena) :
    Frozen filter start (arena.addNode key (.newLeaf key)) := by
  have hnew : ∀ n, ((arena.addNode key (.newLeaf key)).node n).kind = .query →
      n ≠ arena.nextId ∧ (arena.node n).kind = .query := by
    intro n hn
    rw [node_addNode] at hn
    split at hn
    · cases hn
    · next hne => exact ⟨hne, hn⟩
  refine ⟨?_, ?_, ?_, ?_⟩
  · intro other hother
    obtain ⟨n, hn⟩ := h.located other hother
    simp only [addNode, Table.find?_insert]
    split
    · exact ⟨_, rfl⟩
    · exact ⟨n, hn⟩
  · intro n
    rw [← h.query_iff]
    refine ⟨fun hn => (hnew n hn).2, fun hn => ?_⟩
    rwa [node_addNode, if_neg (ne_nextId (query_ne_sink hn))]
  · intro n hn
    rw [node_addNode, if_neg (hnew n hn).1]
    exact h.key? n (hnew n hn).2
  · intro n m hn
    rw [node_addNode, if_neg (hnew n hn).1]
    exact h.above_iff n m (hnew n hn).2

theorem place (h : Frozen filter start arena) :
    Frozen filter start (arena.place key found).2 := by
  unfold Arena.place
  split
  · exact h.addDeadEnd
  · refine h.addLeaf.linkAll ?_
    rw [node_addNode, if_pos rfl]
    exact NodeKind.noConfusion

theorem of_sameShape (h : Frozen filter start arena) (hshape : arena.SameShape after) :
    Frozen filter start after := by
  refine ⟨?_, ?_, ?_, ?_⟩
  · simpa only [hshape.slots] using h.located
  · simpa only [hshape.kind] using h.query_iff
  · simpa only [hshape.kind, hshape.key?] using h.key?
  · simpa only [hshape.kind, hshape.above] using h.above_iff

/-- A link that is there now and was not there before leaves a leaf. -/
theorem leaf_of_new_link (h : Frozen filter start after) (h' : Frozen filter start arena)
    (hafter : m ∈ (after.node n).above) (hbefore : m ∉ (arena.node n).above) :
    (after.node n).kind = .leaf := by
  cases hkind : (after.node n).kind with
  | query =>
    have hn : (arena.node n).kind = .query := (h'.query_iff n).2 ((h.query_iff n).1 hkind)
    exact absurd ((h'.above_iff n m hn).2 ((h.above_iff n m hkind).1 hafter)) hbefore
  | leaf => rfl
  | sink => exact absurd hkind (kind_ne_sink_of_mem_above hafter)

end Frozen

end Arena

/-- A walk stops at accepted keys, since these have slots, and so makes no query node. -/
theorem Arena.Frozen.keptByLocating : Build.KeptByLocating filter (Frozen filter start) where
  addQuery {_ key} hslot haccepts h := by
    obtain ⟨n, hn⟩ := h.located key haccepts
    cases hslot.symm.trans hn
  linkAll {_ _ key _} hslot haccepts hstart _ := by
    obtain ⟨n, hn⟩ := hstart.located key haccepts
    cases hslot.symm.trans hn
  passOver _ _ _ h := h.passOver
  forget h := h.of_nodes rfl fun _ n hn => ⟨n, hn⟩
  place h := h.place

theorem Arena.Frozen.lasts : Arena.Lasts order filter (Arena.Frozen filter start) where
  locate h := keptByLocating.locate h
  shape h hshape := h.of_sameShape hshape

end Downset
