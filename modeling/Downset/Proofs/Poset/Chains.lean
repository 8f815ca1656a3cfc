import Downset.Proofs.Poset.Cycles

/-!
# Orders from chains and edges

Chains declare each of their keys to be below the later ones, and edges add to that. An order is
normalised before its edges are added and again afterwards, so that most of what was declared is no
longer there as a step. If what was declared has no cycle, it is still there as a way: in the end
the ways from key to key are those of the declared relation.
-/

namespace Downset

open Relation

namespace Poset

variable {K : Type} {poset : Poset K} {key other lower upper : K} {row : List K}
  {rows : List (List K)} {edges : List (K × K)} {keys : List K}

/-- The pairs of a chain are the keys of which one comes before the other. -/
theorem mem_chainPairs : (lower, upper) ∈ chainPairs row ↔ [lower, upper].Sublist row := by
  induction row with
  | nil => exact iff_of_false List.not_mem_nil (by simp)
  | cons first rest ih =>
    rw [chainPairs, List.mem_append, ih, List.mem_map]
    constructor
    · rintro (⟨other, hother, heq⟩ | hrest)
      · cases heq
        exact .cons_cons _ (List.singleton_sublist.2 hother)
      · exact hrest.cons first
    · intro h
      cases h with
      | cons _ h => exact .inr h
      | cons_cons _ h => exact .inl ⟨upper, List.singleton_sublist.1 h, rfl⟩

/-- The first key comes before the second in some row, or some edge leads from it to the second. -/
def Declares (rows : List (List K)) (edges : List (K × K)) (lower upper : K) : Prop :=
  (∃ row ∈ rows, [lower, upper].Sublist row) ∨ (lower, upper) ∈ edges

theorem declares_iff :
    Declares rows edges lower upper ↔ (lower, upper) ∈ rows.flatMap chainPairs ++ edges := by
  simp only [Declares, List.mem_append, List.mem_flatMap, mem_chainPairs]

variable [DecidableEq K]

theorem mem_keys_addKeys :
    other ∈ (poset.addKeys keys).keys ↔ other ∈ poset.keys ∨ other ∈ keys := by
  induction keys generalizing poset with
  | nil => simp [addKeys]
  | cons key rest ih =>
    change other ∈ ((poset.addKey key).addKeys rest).keys ↔ _
    rw [ih, mem_keys_addKey, List.mem_cons, or_assoc]

theorem mem_keys_addEdges : other ∈ (poset.addEdges edges).keys ↔
    other ∈ poset.keys ∨ ∃ edge ∈ edges, other = edge.1 ∨ other = edge.2 := by
  induction edges generalizing poset with
  | nil => simp [addEdges]
  | cons edge rest ih =>
    change other ∈ ((poset.addEdge edge.1 edge.2).addEdges rest).keys ↔ _
    rw [ih, mem_keys_addEdge, or_assoc]
    simp only [List.mem_cons, exists_eq_or_imp]

theorem Valid.mem_successors_addKeys (h : poset.Valid) :
    other ∈ (poset.addKeys keys).successors key ↔ other ∈ poset.successors key := by
  induction keys generalizing poset with
  | nil => rfl
  | cons added rest ih => exact (ih (h.addKey added)).trans (h.mem_successors_addKey added)

theorem Valid.mem_successors_addEdges (h : poset.Valid) :
    other ∈ (poset.addEdges edges).successors key ↔
      other ∈ poset.successors key ∨ (key, other) ∈ edges := by
  induction edges generalizing poset with
  | nil => simp [addEdges]
  | cons edge rest ih =>
    change other ∈ ((poset.addEdge edge.1 edge.2).addEdges rest).successors key ↔ _
    rw [ih (h.addEdge edge.1 edge.2), h.mem_successors_addEdge, List.mem_cons, or_assoc,
      Prod.ext_iff]

/-- The order of chains before it is normalised. -/
def chains (rows : List (List K)) : Poset K :=
  ((∅ : Poset K).addKeys rows.flatten).addEdges (rows.flatMap chainPairs)

theorem declared_chains (rows : List (List K)) : (chains rows).Declared :=
  (Declared.empty.addKeys _).addEdges _

theorem mem_keys_ofRows : key ∈ (ofRows rows).keys ↔ key ∈ rows.flatten := by
  change key ∈ (chains rows).keys ↔ _
  rw [chains, mem_keys_addEdges, mem_keys_addKeys]
  constructor
  · rintro ((hnone | hkey) | ⟨⟨lower, upper⟩, hpair, hkey⟩)
    · exact absurd hnone List.not_mem_nil
    · exact hkey
    · obtain ⟨row, hrow, hpair⟩ := List.mem_flatMap.1 hpair
      have hsub := (mem_chainPairs.1 hpair).subset
      refine List.mem_flatten.2 ⟨row, hrow, hsub ?_⟩
      simpa using hkey
  · exact fun hkey => .inl (.inr hkey)

theorem mem_successors_chains :
    upper ∈ (chains rows).successors lower ↔ ∃ row ∈ rows, [lower, upper].Sublist row := by
  have hkeys := (Declared.empty.addKeys rows.flatten).valid
  rw [chains, hkeys.mem_successors_addEdges, valid_empty.mem_successors_addKeys, List.mem_flatMap]
  simp only [mem_chainPairs]
  exact or_iff_right List.not_mem_nil

/-- The order of rows and edges as it is before it is normalised for the second time. -/
theorem declared_addEdges (rows : List (List K)) (edges : List (K × K)) :
    ((ofRows rows).addEdges edges).Declared :=
  (Declared.ofRows rows).addEdges edges

theorem mem_successors_ofRows_addEdges :
    upper ∈ ((ofRows rows).addEdges edges).successors lower ↔
      upper ∈ (ofRows rows).successors lower ∨ (lower, upper) ∈ edges :=
  (Declared.ofRows rows).valid.mem_successors_addEdges

theorem declares_of_mem_successors (h : upper ∈ ((ofRows rows).addEdges edges).successors lower) :
    Declares rows edges lower upper := by
  refine (mem_successors_ofRows_addEdges.1 h).imp_left fun hrow => ?_
  exact mem_successors_chains.1 ((declared_chains rows).valid.mem_successors_normalize.1 hrow).1

section Acyclic

variable (hacyclic : ∀ key, ¬ TransGen (Declares rows edges) key key)

include hacyclic

theorem not_onCycle_of_acyclic : ¬ OnCycle ((ofRows rows).addEdges edges).successors key :=
  fun hcycle => hacyclic key (TransGen.mono (fun _ _ => declares_of_mem_successors) _ _ hcycle)

theorem reaches_of_declares (h : Declares rows edges lower upper) :
    Reaches ((ofRows rows).addEdges edges).successors lower upper := by
  rcases h with hrow | hedge
  · have hchains : ∀ key, ¬ OnCycle (chains rows).successors key := fun key hcycle =>
      hacyclic key (TransGen.mono (fun _ _ hstep => .inl (mem_successors_chains.1 hstep)) _ _ hcycle)
    have hthins := (declared_chains rows).valid.thins_normalize
    have hkept := (hthins.untangled lower upper (untangled_of_acyclic hchains lower upper)).2
      (.single (mem_successors_chains.2 hrow))
    refine ReflTransGen.mono ?_ _ _ hkept
    exact fun _ _ hstep => mem_successors_ofRows_addEdges.2 (.inl hstep)
  · exact .single (mem_successors_ofRows_addEdges.2 (.inr hedge))

theorem reaches_iff_of_acyclic :
    Reaches ((ofRows rows).addEdges edges).normalize.successors lower upper ↔
      ReflTransGen (Declares rows edges) lower upper := by
  have hthins := (declared_addEdges rows edges).valid.thins_normalize
  have huntangled := untangled_of_acyclic (fun key => not_onCycle_of_acyclic hacyclic) lower upper
  rw [hthins.untangled lower upper huntangled]
  constructor
  · exact ReflTransGen.mono (fun _ _ => declares_of_mem_successors) _ _
  · exact reflTransGen_closed (fun _ _ => reaches_of_declares hacyclic) _ _

theorem not_onCycle_normalize_of_acyclic :
    ¬ OnCycle ((ofRows rows).addEdges edges).normalize.successors key := fun hcycle =>
  not_onCycle_of_acyclic hacyclic
    ((declared_addEdges rows edges).valid.thins_normalize.onCycle key hcycle)

/-- What was declared without a cycle is sorted: each key is listed once, after all keys that were
declared to be below it. -/
theorem topologicalOrder_of_acyclic [Quotable K] :
    ∃ order, ((ofRows rows).addEdges edges).normalize.topologicalOrder = .ok order ∧ order.Nodup ∧
      (∀ key, key ∈ order ↔
        key ∈ rows.flatten ∨ ∃ edge ∈ edges, key = edge.1 ∨ key = edge.2) ∧
      ∀ lower upper, Declares rows edges lower upper → [lower, upper].Sublist order := by
  obtain ⟨order, hsorted, hsorts⟩ := (declared_addEdges rows edges).valid.sorts_normalize
    fun key => not_onCycle_of_acyclic hacyclic
  refine ⟨order, hsorted, hsorts.nodup, ?_, ?_⟩
  · intro key
    rw [hsorts.mem_iff, mem_keys_addEdges, mem_keys_ofRows]
  · intro lower upper hdeclares
    refine hsorts.sublist_of_reaches (reaches_of_declares hacyclic hdeclares) ?_
    rintro rfl
    exact hacyclic lower (.single hdeclares)

end Acyclic

end Poset

end Downset
