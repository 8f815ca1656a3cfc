import Downset.Arena.Basic
import Downset.Proofs.Build.Outcome

/-!
# What a change of an arena shows

Each change of an arena is described by what the nodes are afterwards: their kind, their key,
their values, and the links at both ends. Later proofs see an arena through these views alone.
-/

namespace Downset

namespace Node

variable {K V : Type} (node : Node K V)

@[simp] theorem kind_mapAbove (change : OrderedSet NodeId → OrderedSet NodeId) :
    (node.mapAbove change).kind = node.kind := by
  cases node <;> rfl

@[simp] theorem kind_mapBelow (change : OrderedSet NodeId → OrderedSet NodeId) :
    (node.mapBelow change).kind = node.kind := by
  cases node <;> rfl

@[simp] theorem key?_mapAbove (change : OrderedSet NodeId → OrderedSet NodeId) :
    (node.mapAbove change).key? = node.key? := by
  cases node <;> rfl

@[simp] theorem key?_mapBelow (change : OrderedSet NodeId → OrderedSet NodeId) :
    (node.mapBelow change).key? = node.key? := by
  cases node <;> rfl

@[simp] theorem values_mapAbove (change : OrderedSet NodeId → OrderedSet NodeId) :
    (node.mapAbove change).values = node.values := by
  cases node <;> rfl

@[simp] theorem values_mapBelow (change : OrderedSet NodeId → OrderedSet NodeId) :
    (node.mapBelow change).values = node.values := by
  cases node <;> rfl

@[simp] theorem below_mapAbove (change : OrderedSet NodeId → OrderedSet NodeId) :
    (node.mapAbove change).below = node.below := by
  cases node <;> rfl

@[simp] theorem above_mapBelow (change : OrderedSet NodeId → OrderedSet NodeId) :
    (node.mapBelow change).above = node.above := by
  cases node <;> rfl

theorem above_mapAbove (change : OrderedSet NodeId → OrderedSet NodeId) :
    (node.mapAbove change).above = if node.kind = .sink then ∅ else change node.above := by
  cases node <;> simp [mapAbove, above, kind]

theorem below_mapBelow (change : OrderedSet NodeId → OrderedSet NodeId) :
    (node.mapBelow change).below = if node.kind = .query then change node.below else ∅ := by
  cases node <;> simp [mapBelow, below, kind]

theorem above_eq_empty (h : node.kind = .sink) : node.above = ∅ := by
  cases node <;> simp_all [kind, above]

theorem below_eq_empty (h : node.kind ≠ .query) : node.below = ∅ := by
  cases node <;> simp_all [kind, below]

theorem values_eq_empty (h : node.kind = .sink) : node.values = ∅ := by
  cases node <;> simp_all [kind, values]

theorem key?_eq_none_iff : node.key? = none ↔ node.kind = .sink := by
  cases node <;> simp [kind, key?]

section Values

variable [DecidableEq V] (value : V)

@[simp] theorem kind_accept : (node.accept value).kind = node.kind := by
  cases node <;> rfl

@[simp] theorem key?_accept : (node.accept value).key? = node.key? := by
  cases node <;> rfl

@[simp] theorem above_accept : (node.accept value).above = node.above := by
  cases node <;> rfl

@[simp] theorem below_accept : (node.accept value).below = node.below := by
  cases node <;> rfl

theorem mem_values_accept {other : V} :
    other ∈ (node.accept value).values ↔
      other ∈ node.values ∨ (node.kind ≠ .sink ∧ other = value) := by
  cases node <;> simp [accept, values, kind]

theorem values_accept :
    (node.accept value).values =
      if node.kind = .sink then node.values else node.values.insert value := by
  cases node <;> rfl

end Values

@[simp] theorem kind_clear : node.clear.kind = node.kind := by
  cases node <;> rfl

@[simp] theorem key?_clear : node.clear.key? = node.key? := by
  cases node <;> rfl

@[simp] theorem above_clear : node.clear.above = node.above := by
  cases node <;> rfl

@[simp] theorem below_clear : node.clear.below = node.below := by
  cases node <;> rfl

@[simp] theorem values_clear : node.clear.values = ∅ := by
  cases node <;> rfl

end Node

namespace Arena

variable {K V : Type} {arena : Arena K V} {id lower upper n m : NodeId}

/-- The nodes to which the values of a node flow directly. -/
def uppers (arena : Arena K V) (id : NodeId) : List NodeId := (arena.node id).above.toList

theorem index_lt_of_kind_ne_sink (h : (arena.node n).kind ≠ .sink) : n.index < arena.nodes.size := by
  refine Classical.byContradiction fun hge => h ?_
  rw [node, Array.getD_eq_getD_getElem?, Array.getElem?_eq_none (Nat.le_of_not_lt hge)]
  rfl

theorem mem_ids (h : (arena.node n).kind ≠ .sink) : n ∈ arena.ids :=
  List.mem_map.2 ⟨n.index, List.mem_range.2 (index_lt_of_kind_ne_sink h), rfl⟩

theorem ne_nextId (h : (arena.node n).kind ≠ .sink) : n ≠ arena.nextId := by
  rintro rfl
  exact absurd (index_lt_of_kind_ne_sink h) (Nat.lt_irrefl _)

theorem exists_key (h : (arena.node n).kind ≠ .sink) : ∃ key, (arena.node n).key? = some key := by
  rw [Ne, ← Node.key?_eq_none_iff] at h
  exact Option.ne_none_iff_exists'.1 h

theorem kind_ne_sink {key : K} (h : (arena.node n).key? = some key) :
    (arena.node n).kind ≠ .sink := by
  rw [Ne, ← Node.key?_eq_none_iff, h]
  exact Option.some_ne_none key

theorem query_ne_sink (h : (arena.node n).kind = .query) : (arena.node n).kind ≠ .sink := by
  rw [h]
  decide

theorem kind_ne_sink_of_mem_above (h : m ∈ (arena.node n).above) :
    (arena.node n).kind ≠ .sink := by
  intro hsink
  rw [(arena.node n).above_eq_empty hsink] at h
  exact OrderedSet.not_mem_empty m h

theorem node_modify {change : Node K V → Node K V} (hsink : change .sink = .sink) :
    (arena.modify id change).node n = if n = id then change (arena.node n) else arena.node n := by
  have hindex : id.index = n.index ↔ n = id := ⟨fun e => NodeId.ext e.symm, fun e => e ▸ rfl⟩
  simp only [node, modify, Array.getD_eq_getD_getElem?, Array.getElem?_modify, hindex]
  split
  · cases arena.nodes[n.index]? with
    | none => exact hsink.symm
    | some _ => rfl
  · rfl

theorem node_mapNodes {change : Node K V → Node K V} (hsink : change .sink = .sink) :
    (arena.mapNodes change).node n = change (arena.node n) := by
  simp only [node, mapNodes, Array.getD_eq_getD_getElem?, Array.getElem?_map]
  cases arena.nodes[n.index]? with
  | none => exact hsink.symm
  | some _ => rfl

theorem node_addNode [DecidableEq K] {key : K} {node : Node K V} :
    (arena.addNode key node).node n = if n = arena.nextId then node else arena.node n := by
  by_cases h : n = arena.nextId
  · subst h
    simp [Arena.node, addNode, nextId]
  · have hne : n.index ≠ arena.nodes.size := fun e => h (NodeId.ext e)
    simp [Arena.node, addNode, Array.getD_eq_getD_getElem?, Array.getElem?_push, hne, h]

/-- The nodes of two arenas have the same kinds, keys and slots; links and values may differ. -/
structure SameNodes (arena after : Arena K V) : Prop where
  size : after.nodes.size = arena.nodes.size
  slots : after.slots = arena.slots
  skipped : after.skipped = arena.skipped
  kind : ∀ n, (after.node n).kind = (arena.node n).kind
  key? : ∀ n, (after.node n).key? = (arena.node n).key?

section Link

theorem node_link :
    (arena.link lower upper).node n =
      if n = upper then
        (if n = lower then (arena.node n).mapAbove fun s => s.insert upper
          else arena.node n).mapBelow fun s => s.insert lower
      else if n = lower then (arena.node n).mapAbove fun s => s.insert upper
      else arena.node n := by
  rw [link, node_modify rfl, node_modify rfl]

@[simp] theorem kind_link : ((arena.link lower upper).node n).kind = (arena.node n).kind := by
  rw [node_link]
  split <;> split <;> simp

@[simp] theorem key?_link : ((arena.link lower upper).node n).key? = (arena.node n).key? := by
  rw [node_link]
  split <;> split <;> simp

@[simp] theorem values_link : ((arena.link lower upper).node n).values = (arena.node n).values := by
  rw [node_link]
  split <;> split <;> simp

theorem mem_above_link :
    m ∈ ((arena.link lower upper).node n).above ↔
      m ∈ (arena.node n).above ∨
        ((arena.node lower).kind ≠ .sink ∧ n = lower ∧ m = upper) := by
  have hempty := (arena.node n).above_eq_empty
  rw [node_link]
  grind [Node.above_mapBelow, Node.above_mapAbove, OrderedSet.mem_insert, OrderedSet.not_mem_empty]

theorem mem_below_link :
    m ∈ ((arena.link lower upper).node n).below ↔
      m ∈ (arena.node n).below ∨
        ((arena.node upper).kind = .query ∧ n = upper ∧ m = lower) := by
  have hempty := (arena.node n).below_eq_empty
  rw [node_link]
  grind [Node.below_mapBelow, Node.below_mapAbove, Node.kind_mapAbove, OrderedSet.mem_insert,
    OrderedSet.not_mem_empty]

@[simp] theorem slots_link : (arena.link lower upper).slots = arena.slots := rfl

@[simp] theorem skipped_link : (arena.link lower upper).skipped = arena.skipped := rfl

@[simp] theorem size_link : (arena.link lower upper).nodes.size = arena.nodes.size := by
  simp [link, modify]

theorem sameNodes_link : SameNodes arena (arena.link lower upper) :=
  ⟨size_link, rfl, rfl, fun _ => kind_link, fun _ => key?_link⟩

end Link

section LinkAll

variable {uppers : List NodeId}

@[simp] theorem linkAll_nil : arena.linkAll lower [] = arena := rfl

@[simp] theorem linkAll_cons :
    arena.linkAll lower (upper :: uppers) = (arena.link lower upper).linkAll lower uppers := rfl

@[simp] theorem slots_linkAll : (arena.linkAll lower uppers).slots = arena.slots := by
  induction uppers generalizing arena with
  | nil => rfl
  | cons upper uppers ih => rw [linkAll_cons, ih, slots_link]

@[simp] theorem skipped_linkAll : (arena.linkAll lower uppers).skipped = arena.skipped := by
  induction uppers generalizing arena with
  | nil => rfl
  | cons upper uppers ih => rw [linkAll_cons, ih, skipped_link]

@[simp] theorem kind_linkAll : ((arena.linkAll lower uppers).node n).kind = (arena.node n).kind := by
  induction uppers generalizing arena with
  | nil => rfl
  | cons upper uppers ih => rw [linkAll_cons, ih, kind_link]

theorem mem_above_linkAll :
    m ∈ ((arena.linkAll lower uppers).node n).above ↔
      m ∈ (arena.node n).above ∨
        ((arena.node lower).kind ≠ .sink ∧ n = lower ∧ m ∈ uppers) := by
  induction uppers generalizing arena with
  | nil => simp
  | cons upper uppers ih =>
    rw [linkAll_cons, ih, mem_above_link, kind_link, List.mem_cons]
    grind

theorem above_linkAll_self (hlower : (arena.node lower).kind ≠ .sink) :
    ((arena.linkAll lower uppers).node lower).above = (arena.node lower).above.insertMany uppers := by
  induction uppers generalizing arena with
  | nil => rfl
  | cons upper uppers ih =>
    have habove : ((arena.link lower upper).node lower).above =
        (arena.node lower).above.insert upper := by
      rw [node_link, if_pos rfl]
      split <;> simp [Node.above_mapAbove, hlower]
    rw [linkAll_cons, ih (by rwa [kind_link]), habove, OrderedSet.insertMany_cons]

end LinkAll

section Unlink

theorem node_unlink :
    (arena.unlink lower upper).node n =
      if n = upper then
        (if n = lower then (arena.node n).mapAbove fun s => s.erase upper
          else arena.node n).mapBelow fun s => s.erase lower
      else if n = lower then (arena.node n).mapAbove fun s => s.erase upper
      else arena.node n := by
  rw [unlink, node_modify rfl, node_modify rfl]

@[simp] theorem kind_unlink : ((arena.unlink lower upper).node n).kind = (arena.node n).kind := by
  rw [node_unlink]
  split <;> split <;> simp

@[simp] theorem key?_unlink : ((arena.unlink lower upper).node n).key? = (arena.node n).key? := by
  rw [node_unlink]
  split <;> split <;> simp

@[simp] theorem values_unlink :
    ((arena.unlink lower upper).node n).values = (arena.node n).values := by
  rw [node_unlink]
  split <;> split <;> simp

theorem mem_above_unlink :
    m ∈ ((arena.unlink lower upper).node n).above ↔
      m ∈ (arena.node n).above ∧ ¬ (n = lower ∧ m = upper) := by
  have hempty := (arena.node n).above_eq_empty
  rw [node_unlink]
  grind [Node.above_mapBelow, Node.above_mapAbove, OrderedSet.mem_erase, OrderedSet.not_mem_empty]

theorem mem_below_unlink :
    m ∈ ((arena.unlink lower upper).node n).below ↔
      m ∈ (arena.node n).below ∧ ¬ (n = upper ∧ m = lower) := by
  have hempty := (arena.node n).below_eq_empty
  rw [node_unlink]
  grind [Node.below_mapBelow, Node.below_mapAbove, Node.kind_mapAbove, OrderedSet.mem_erase,
    OrderedSet.not_mem_empty]

end Unlink

end Arena

end Downset
