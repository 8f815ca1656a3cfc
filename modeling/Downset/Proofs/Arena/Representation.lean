import Downset.Proofs.Arena.Reduction
import Downset.Proofs.Arena.Visits
import Downset.Proofs.Build.Leaves

/-!
# How an arena represents nodes

A slot stands for a node wherever it occurs: at a key, at either end of a link, in what is
remembered of a key, among the nodes that a sweep meets. In an arena that represents nodes every
such slot lies within the array and holds a node of the kind that belongs there. A consistent
arena does so if no slot but the first is empty, leaves have links, and nothing empty is
remembered.
-/

namespace Downset.Arena

variable {K V : Type}

/-- Every slot but that of the sink holds a node with a key. -/
def Filled (arena : Arena K V) : Prop :=
  ∀ n, n.index < arena.nodes.size → n ≠ .sink → (arena.node n).kind ≠ .sink

namespace Filled

variable {arena after : Arena K V}

theorem of_kind (h : arena.Filled) (hsize : after.nodes.size = arena.nodes.size)
    (hkind : ∀ n, (after.node n).kind = (arena.node n).kind) : after.Filled := by
  intro n hn hne
  rw [hkind]
  exact h n (hsize ▸ hn) hne

theorem of_empty : (∅ : Arena K V).Filled := by
  intro n hn hne
  exact absurd (NodeId.ext (Nat.lt_one_iff.1 hn)) hne

theorem dropTransitive (h : arena.Filled) : arena.dropTransitive.Filled :=
  h.of_kind size_unlinkAll fun _ => kind_unlinkAll

theorem link {lower upper : NodeId} (h : arena.Filled) : (arena.link lower upper).Filled :=
  h.of_kind size_link fun _ => kind_link

theorem linkAll {lower : NodeId} {uppers : List NodeId} (h : arena.Filled) :
    (arena.linkAll lower uppers).Filled := by
  induction uppers generalizing arena with
  | nil => exact h
  | cons upper uppers ih => exact ih h.link

variable [DecidableEq K] {key : K} {node : Node K V} {found : OrderedSet NodeId}

theorem addNode (h : arena.Filled) (hnode : node.kind ≠ .sink) : (arena.addNode key node).Filled := by
  intro n hn hne
  rw [node_addNode]
  split
  · exact hnode
  · next hnew =>
    rw [size_addNode] at hn
    have hindex : n.index ≠ arena.nodes.size := fun heq => hnew (NodeId.ext heq)
    exact h n (by omega) hne

theorem place (h : arena.Filled) : (arena.place key found).2.Filled := by
  unfold Arena.place
  split
  · exact h
  · exact (h.addNode NodeKind.noConfusion).linkAll

theorem keptByLocating (filter : KeyFilter K) :
    Build.KeptByLocating filter (Filled (K := K) (V := V)) where
  addQuery _ _ h := h.addNode NodeKind.noConfusion
  linkAll _ _ _ := linkAll
  passOver _ _ _ h := by
    unfold Arena.passOver
    split <;> exact h
  forget h := h
  place := place

end Filled

variable [DecidableEq K]

/-- The slots that occur in an arena lie within it and hold nodes of the right kinds. -/
structure Represents (filter : KeyFilter K) (arena : Arena K V) : Prop where
  size_pos : 0 < arena.nodes.size
  sink_iff : ∀ n, n.index < arena.nodes.size → ((arena.node n).kind = .sink ↔ n = .sink)
  indexed : ∀ n, n.index < arena.nodes.size → n ≠ .sink →
    ∃ key, (arena.node n).key? = some key ∧ arena.slots.find? key = some n
  slot_inj : ∀ key other n, arena.slots.find? key = some n → arena.slots.find? other = some n →
    n ≠ .sink → key = other
  slot_lt : ∀ key n, arena.slots.find? key = some n → n.index < arena.nodes.size
  query_iff : ∀ key n, arena.slots.find? key = some n →
    ((arena.node n).kind = .query ↔ filter.accepts key = true)
  link_lower : ∀ n m, m ∈ (arena.node n).above → n.index < arena.nodes.size ∧
    ((arena.node n).kind = .query ∨ (arena.node n).kind = .leaf)
  link_upper : ∀ n m, m ∈ (arena.node n).above → m.index < arena.nodes.size ∧
    (arena.node m).kind = .query
  mirror : ∀ n m, m ∈ (arena.node n).above ↔ n ∈ (arena.node m).below
  leaf_above : ∀ n, (arena.node n).kind = .leaf → ∃ m, m ∈ (arena.node n).above
  skipped : ∀ key found, arena.skipped.find? key = some found →
    filter.accepts key = false ∧ arena.slots.find? key = none ∧ (∃ m, m ∈ found) ∧
      ∀ m ∈ found, m.index < arena.nodes.size ∧ (arena.node m).kind = .query

variable {order : KeyOrder K} {filter : KeyFilter K} {dropped : K → K → Prop} {path : List K}
  {arena : Arena K V}

theorem Consistent.represents (h : Consistent order filter dropped path arena)
    (hproductive : arena.Productive) (hfilled : arena.Filled) : arena.Represents filter where
  size_pos := h.size_pos
  sink_iff n hn := by
    constructor
    · intro hkind
      exact Classical.byContradiction fun hne => hfilled n hn hne hkind
    · rintro rfl
      exact h.kind_sink
  indexed n hn hne := by
    obtain ⟨key, hkey⟩ := exists_key (hfilled n hn hne)
    exact ⟨key, hkey, h.slot_of_key hkey⟩
  slot_inj key other n hkey hother hne := by
    have heq := (h.key_of_slot hkey hne).symm.trans (h.key_of_slot hother hne)
    exact Option.some.inj heq
  slot_lt key n hn := h.slot_lt hn
  query_iff key n hn := h.query_iff hn
  link_lower n m hm := by
    have hne := kind_ne_sink_of_mem_above hm
    refine ⟨index_lt_of_kind_ne_sink hne, ?_⟩
    cases hkind : (arena.node n).kind with
    | query => exact .inl rfl
    | leaf => exact .inr rfl
    | sink => exact absurd hkind hne
  link_upper n m hm :=
    ⟨index_lt_of_kind_ne_sink (query_ne_sink (h.kind_above hm)), h.kind_above hm⟩
  mirror n m := h.mirror
  leaf_above := hproductive.leaf_above
  skipped key found hfound := by
    obtain ⟨hrejected, hnone⟩ := h.skipped hfound
    refine ⟨hrejected, hnone, hproductive.skipped_some key found hfound, fun m hm => ?_⟩
    have hkind := (h.remembered hfound).kind_eq_query h.toWellFormed hm
    exact ⟨index_lt_of_kind_ne_sink (query_ne_sink hkind), hkind⟩

/-- A sweep looks at query nodes and leaves only. -/
theorem Represents.sweep [DecidableEq V] (h : arena.Represents filter)
    {caches : Table NodeId (Cache V)} {start n : NodeId}
    (hn : n ∈ (arena.aggregate start (.start caches)).seen) :
    n.index < arena.nodes.size ∧ ((arena.node n).kind = .query ∨ (arena.node n).kind = .leaf) := by
  obtain ⟨lower, hlower, hflow⟩ := mem_seen_aggregate (fun {n m} => h.mirror n m) hn
  rcases hflow.cases_head with rfl | ⟨m, step, _⟩
  · exact h.link_lower n start hlower
  · exact h.link_lower n m step

end Downset.Arena
