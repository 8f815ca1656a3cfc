import Downset.Proofs.Arena.Links
import Downset.Arena.Aggregate

/-!
# Induction over sweeps

A sweep takes the nodes of a list in turn. A node met before is left out. Any other node is
taken: its fresh cache if it has one, its own values if it is not a query node, and otherwise
what a sweep over the nodes below it collects. What holds of every way to take a node and of
every list of nodes follows from these cases.
-/

namespace Downset

variable {K V : Type} [DecidableEq V]

namespace OrderedSet

theorem union_empty (s : OrderedSet V) : s ∪ ∅ = s := by
  ext1
  rw [toList_union, toList_empty, List.filter_nil, List.append_nil]

end OrderedSet

namespace Arena

variable {arena : Arena K V} {id : NodeId} {ids rest : List NodeId} {found : Cache V}
  {sweep : Sweep V}

/-- What a sweep collects at a node that it has not met before. -/
def take (arena : Arena K V) (id : NodeId) (sweep : Sweep V) : Collected V :=
  match (arena.node id).kind, sweep.fresh? id with
  | .query, some known => ⟨⟨known, true⟩, sweep.meet id⟩
  | .query, none =>
    let inner := arena.collect (arena.node id).below.toList ⟨(arena.node id).values, true⟩
      (sweep.meet id)
    ⟨inner.cache, inner.sweep.store id inner.cache⟩
  | _, _ => ⟨⟨(arena.node id).values, true⟩, sweep.meet id⟩

theorem collect_cons (h : id ∉ sweep.seen) :
    arena.collect (id :: rest) found sweep =
      arena.collect rest ⟨found.values ∪ (arena.take id sweep).cache.values,
        found.isFresh && (arena.take id sweep).cache.isFresh⟩ (arena.take id sweep).sweep := by
  rw [collect_cons_of_not_mem h, take]
  cases hnode : arena.node id with
  | query key values below above =>
    cases hfresh : sweep.fresh? id with
    | some known => simp only [Node.kind, Bool.and_true]
    | none => simp only [Node.kind, Node.below, Node.values]
  | leaf key values above => simp only [Node.kind, Node.values, Bool.and_true]
  | sink => simp only [Node.kind, Node.values, Bool.and_true, OrderedSet.union_empty]

theorem mem_seen_collect {other : NodeId} (h : other ∈ sweep.seen) :
    other ∈ (arena.collect ids found sweep).sweep.seen :=
  (arena.collectFrom ids found sweep).2 other h

theorem mem_seen_take {other : NodeId} (h : other ∈ id :: sweep.seen) :
    other ∈ (arena.take id sweep).sweep.seen := by
  rw [take]
  split
  · exact h
  · exact mem_seen_collect h
  · exact h

theorem aggregate_of_fresh {values : OrderedSet V} (h : sweep.fresh? id = some values) :
    arena.aggregate id sweep = sweep := by
  unfold aggregate
  rw [h]
  cases arena.node id <;> rfl

theorem aggregate_of_ne_query (h : (arena.node id).kind ≠ .query) :
    arena.aggregate id sweep = sweep := by
  unfold aggregate
  cases hnode : arena.node id with
  | query key values below above => exact absurd (congrArg Node.kind hnode) h
  | leaf key values above => rfl
  | sink => rfl

theorem aggregate_of_stale (hkind : (arena.node id).kind = .query) (h : sweep.fresh? id = none) :
    arena.aggregate id sweep =
      let inner := arena.collect (arena.node id).below.toList ⟨(arena.node id).values, true⟩ sweep
      inner.sweep.store id inner.cache := by
  unfold aggregate
  cases hnode : arena.node id with
  | query key values below above => rw [h]; rfl
  | leaf key values above => simp [hnode, Node.kind] at hkind
  | sink => simp [hnode, Node.kind] at hkind

/-- A sweep from a node changes nothing, or else the node is a query node that is not fresh. -/
theorem aggregate_cases (arena : Arena K V) (id : NodeId) (sweep : Sweep V) :
    arena.aggregate id sweep = sweep ∨
      (arena.node id).kind = .query ∧ sweep.fresh? id = none ∧
        arena.aggregate id sweep =
          let inner := arena.collect (arena.node id).below.toList ⟨(arena.node id).values, true⟩
            sweep
          inner.sweep.store id inner.cache := by
  by_cases hkind : (arena.node id).kind = .query
  · cases hfresh : sweep.fresh? id with
    | some values => exact .inl (aggregate_of_fresh hfresh)
    | none => exact .inr ⟨hkind, rfl, aggregate_of_stale hkind hfresh⟩
  · exact .inl (aggregate_of_ne_query hkind)

theorem take_of_ne_query (h : (arena.node id).kind ≠ .query) :
    arena.take id sweep = ⟨⟨(arena.node id).values, true⟩, sweep.meet id⟩ := by
  unfold take
  split
  · next hkind _ => exact absurd hkind h
  · next hkind _ => exact absurd hkind h
  · rfl

/-- Two properties, of taking a node and of collecting from a list, that follow for each case
from what is collected below the node or from the rest of the list, hold of every sweep. -/
theorem sweep_induction (arena : Arena K V) (Taken : NodeId → Sweep V → Collected V → Prop)
    (Swept : List NodeId → Cache V → Sweep V → Collected V → Prop)
    (known : ∀ id sweep values, id ∉ sweep.seen → (arena.node id).kind = .query →
      sweep.fresh? id = some values → Taken id sweep ⟨⟨values, true⟩, sweep.meet id⟩)
    (flat : ∀ id sweep, id ∉ sweep.seen → (arena.node id).kind ≠ .query →
      Taken id sweep ⟨⟨(arena.node id).values, true⟩, sweep.meet id⟩)
    (deep : ∀ id sweep inner, id ∉ sweep.seen → (arena.node id).kind = .query →
      sweep.fresh? id = none →
        Swept (arena.node id).below.toList ⟨(arena.node id).values, true⟩ (sweep.meet id) inner →
          Taken id sweep ⟨inner.cache, inner.sweep.store id inner.cache⟩)
    (nil : ∀ found sweep, Swept [] found sweep ⟨found, sweep⟩)
    (again : ∀ id rest found sweep result, id ∈ sweep.seen →
      Swept rest ⟨found.values, false⟩ sweep result → Swept (id :: rest) found sweep result)
    (cons : ∀ id rest found sweep first result, id ∉ sweep.seen → Taken id sweep first →
      Swept rest ⟨found.values ∪ first.cache.values, found.isFresh && first.cache.isFresh⟩
        first.sweep result → Swept (id :: rest) found sweep result)
    (ids : List NodeId) (found : Cache V) (sweep : Sweep V) :
    Swept ids found sweep (arena.collect ids found sweep) := by
  induction hleft : remaining arena.ids sweep.seen using Nat.strongRecOn
    generalizing ids found sweep with
  | ind left ih =>
    subst hleft
    -- taking a node leaves fewer nodes to be met, so the sweep below it is known to behave
    have htake : ∀ id (sweep' : Sweep V), id ∉ sweep'.seen →
        remaining arena.ids sweep'.seen ≤ remaining arena.ids sweep.seen →
          Taken id sweep' (arena.take id sweep') := by
      intro id sweep' hid hle
      rw [take]
      split
      · next values hkind hfresh => exact known id sweep' values hid hkind hfresh
      · next hkind hfresh =>
        refine deep id sweep' _ hid hkind hfresh (ih _ ?_ _ _ _ rfl)
        have hmem : id ∈ arena.ids := mem_ids (query_ne_sink hkind)
        have hlt : remaining arena.ids (sweep'.meet id).seen < remaining arena.ids sweep'.seen :=
          remaining_lt hmem hid List.mem_cons_self fun _ h => List.mem_cons_of_mem _ h
        exact Nat.lt_of_lt_of_le hlt hle
      · next hsome hnone =>
        refine flat id sweep' hid ?_
        intro hkind
        cases hfresh : sweep'.fresh? id with
        | some values => exact hsome values hkind hfresh
        | none => exact hnone hkind hfresh
    clear ih
    have hlist : ∀ (ids : List NodeId) (found : Cache V) (sweep' : Sweep V),
        remaining arena.ids sweep'.seen ≤ remaining arena.ids sweep.seen →
          Swept ids found sweep' (arena.collect ids found sweep') := by
      intro ids
      induction ids with
      | nil =>
        intro found sweep' _
        rw [collect_nil]
        exact nil found sweep'
      | cons id rest ih =>
        intro found sweep' hle
        by_cases hid : id ∈ sweep'.seen
        · rw [collect_cons_of_mem hid]
          exact again id rest found sweep' _ hid (ih _ sweep' hle)
        · rw [collect_cons hid]
          refine cons id rest found sweep' _ _ hid (htake id sweep' hid hle) (ih _ _ ?_)
          refine Nat.le_trans (remaining_le _ fun other hother => ?_) hle
          exact mem_seen_take (List.mem_cons_of_mem _ hother)
    exact hlist ids found sweep (Nat.le_refl _)

end Arena

end Downset
