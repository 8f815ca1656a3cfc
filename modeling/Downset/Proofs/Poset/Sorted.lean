import Downset.Poset.Order
import Downset.Proofs.Digraph.TwoPass
import Downset.Proofs.Poset.Declared

/-!
# Keys from the lowest up

The keys of a finite order are listed by sorting their numbers. The list has each key once and
every key before its successors. So the place in the list grows along every step, and there is no
list if the order has a cycle; then the fault names a key on a cycle. Which list is made, and which
key is named, follows from the two passes through the graph of the numbers.
-/

namespace Downset.Poset

open Relation

variable {K : Type} [DecidableEq K] {poset : Poset K} {key lower upper : K} {order : List K}

/-- Each key is listed once, before its successors. -/
structure Sorts (poset : Poset K) (order : List K) : Prop where
  nodup : order.Nodup
  mem_iff : ∀ key, key ∈ order ↔ key ∈ poset.keys
  forward : ∀ lower, ∀ upper ∈ poset.successors lower, [lower, upper].Sublist order

theorem Sorts.idxOf_lt (h : poset.Sorts order) (hstep : upper ∈ poset.successors lower) :
    order.idxOf lower < order.idxOf upper :=
  idxOf_lt_of_sublist h.nodup (h.forward lower upper hstep)

theorem Sorts.not_onCycle (h : poset.Sorts order) : ¬ OnCycle poset.successors key :=
  not_onCycle_of_rank fun _ _ hstep => h.idxOf_lt hstep

theorem Sorts.sublist_of_reaches (h : poset.Sorts order)
    (hreaches : Reaches poset.successors lower upper) (hne : lower ≠ upper) :
    [lower, upper].Sublist order := by
  have habove := (reflTransGen_iff_eq_or_transGen.1 hreaches).resolve_left (Ne.symm hne)
  obtain ⟨middle, _, hlast⟩ := TransGen.tail'_iff.1 habove
  have hmem : upper ∈ order := (h.mem_iff upper).2 (mem_keys_of_mem_successors hlast)
  exact sublist_of_idxOf_lt hmem (rank_lt_of_above (fun _ _ hstep => h.idxOf_lt hstep) habove)

/-- An order has no cycle if all its steps lead upwards in some rank. -/
theorem Valid.not_onCycle_of_ascending (h : poset.Valid) (rank : K → Nat)
    (hascending : ∀ lower ∈ poset.keys, ∀ upper ∈ poset.successors lower, rank lower < rank upper)
    (key : K) : ¬ OnCycle poset.successors key := by
  refine not_onCycle_of_rank fun lower upper hstep => hascending lower ?_ upper hstep
  obtain ⟨u, _, hu, _⟩ := h.mem_successors.1 hstep
  exact List.mem_of_getElem? hu

theorem Valid.sorts_of_graph (h : poset.Valid) {numbers : List Nat}
    (hsorts : poset.graph.Sorts numbers) :
    poset.Sorts (numbers.filterMap fun v => poset.keys[v]?) := by
  have hvertex : ∀ v, v ∈ poset.graph.vertices ↔ v < poset.keys.length := by
    intro v
    rw [← h.size]
    exact List.mem_range
  refine ⟨?_, ?_, ?_⟩
  · refine List.Nodup.filterMap (fun u v key hu hv => ?_) hsorts.nodup
    exact (h.number_inj hu hv).2 rfl
  · intro key
    rw [List.mem_filterMap]
    constructor
    · rintro ⟨v, _, hkey⟩
      exact List.mem_of_getElem? hkey
    · intro hkey
      have hlt := List.idxOf_lt_length_of_mem hkey
      exact ⟨poset.keys.idxOf key, (hsorts.mem_iff _).2 ((hvertex _).2 hlt), getElem?_idxOf hkey⟩
  · intro lower upper hstep
    obtain ⟨u, v, hu, hv, hedge⟩ := h.mem_successors.1 hstep
    have hforward := hsorts.forward u v hedge ((hvertex v).2 (h.bound u v hedge))
    have hkeys := hforward.filterMap fun v => poset.keys[v]?
    rw [List.filterMap_cons_some hu, List.filterMap_cons_some hv, List.filterMap_nil] at hkeys
    exact hkeys

/-- Either the keys are sorted, or a key on a cycle is named. -/
theorem Valid.topologicalOrder_cases [Quotable K] (h : poset.Valid) :
    (∃ order, poset.topologicalOrder = .ok order ∧ poset.Sorts order) ∨
    ∃ key, poset.topologicalOrder = .error (.cycleDetected poset.describe (quote key)) ∧
      OnCycle poset.successors key := by
  unfold topologicalOrder
  rcases poset.graph.topologicalOrder_cases with
    ⟨numbers, hsorted, hsorts⟩ | ⟨v, hv, hfails, hcycle⟩
  · rw [hsorted]
    exact .inl ⟨_, rfl, h.sorts_of_graph hsorts⟩
  · obtain ⟨key, hkey⟩ := h.exists_key hv
    refine .inr ⟨key, ?_, (h.onCycle_iff hkey).2 hcycle⟩
    simp only [hfails, hkey, Option.elim_some]

omit [DecidableEq K] in
/-- The two passes through the numbers tell the list of keys, or the key that the fault names. -/
theorem Valid.topologicalOrder_of_twoPassOrder [Quotable K] (h : poset.Valid) :
    match poset.graph.twoPassOrder with
    | .ok numbers => ∃ order, poset.topologicalOrder = .ok order ∧
        order.map some = numbers.map fun v => poset.keys[v]?
    | .error v => ∃ key, poset.keys[v]? = some key ∧
        poset.topologicalOrder = .error (.cycleDetected poset.describe (quote key)) := by
  rw [Digraph.twoPassOrder_eq]
  unfold topologicalOrder
  rcases poset.graph.topologicalOrder_cases with ⟨numbers, hsorted, hsorts⟩ | ⟨v, hv, hfails, _⟩
  · rw [hsorted]
    refine ⟨_, rfl, ?_⟩
    have hkeys : ∀ v ∈ numbers, ∃ key, poset.keys[v]? = some key := fun v hv =>
      h.exists_key ((hsorts.mem_iff v).1 hv)
    clear hsorted hsorts
    induction numbers with
    | nil => rfl
    | cons v numbers ih =>
      obtain ⟨key, hkey⟩ := hkeys v List.mem_cons_self
      rw [List.filterMap_cons_some hkey, List.map_cons, List.map_cons, hkey,
        ih fun w hw => hkeys w (List.mem_cons_of_mem v hw)]
  · obtain ⟨key, hkey⟩ := h.exists_key hv
    rw [hfails]
    refine ⟨key, hkey, ?_⟩
    simp only [hkey, Option.elim_some]

/-- The keys are listed if and only if there is no cycle: each of them once, and before its
successors. Otherwise the fault names a key on a cycle. The list, or the key, is the one that the two
passes through the graph of the numbers find. -/
theorem Declared.topologicalOrder_spec [Quotable K] (h : poset.Declared) :
    ((∃ order, poset.topologicalOrder = .ok order) ↔ ∀ key, ¬ OnCycle poset.successors key) ∧
    (∀ order, poset.topologicalOrder = .ok order → poset.Sorts order) ∧
    (∀ fault, poset.topologicalOrder = .error fault → ∃ key ∈ poset.keys,
      fault = .cycleDetected poset.describe (quote key) ∧ OnCycle poset.successors key) ∧
    match poset.graph.twoPassOrder with
    | .ok numbers => ∃ order, poset.topologicalOrder = .ok order ∧
        order.map some = numbers.map fun v => poset.keys[v]?
    | .error v => ∃ key, poset.keys[v]? = some key ∧
        poset.topologicalOrder = .error (.cycleDetected poset.describe (quote key)) := by
  have htwoPass := h.valid.topologicalOrder_of_twoPassOrder
  rcases h.valid.topologicalOrder_cases with ⟨order, hsorted, hsorts⟩ | ⟨key, hfails, hcycle⟩
  · refine ⟨⟨fun _ key => hsorts.not_onCycle, fun _ => ⟨order, hsorted⟩⟩, ?_, ?_, htwoPass⟩
    · intro other hother
      cases hsorted.symm.trans hother
      exact hsorts
    · intro fault hfault
      cases hsorted.symm.trans hfault
  · have hkey : key ∈ poset.keys := by
      obtain ⟨middle, _, hlast⟩ := TransGen.tail'_iff.1 hcycle
      exact mem_keys_of_mem_successors hlast
    refine ⟨⟨?_, fun hacyclic => absurd hcycle (hacyclic key)⟩, ?_, ?_, htwoPass⟩
    · rintro ⟨order, hsorted⟩
      cases hsorted.symm.trans hfails
    · intro order hsorted
      cases hsorted.symm.trans hfails
    · intro fault hfault
      cases hfails.symm.trans hfault
      exact ⟨key, hkey, rfl, hcycle⟩

/-- A chain with its long edge is listed from below; with an edge back to its start it is not. -/
theorem topologicalOrder_spec_chain :
    let edges := [("a", "b"), ("b", "c"), ("a", "c")]
    (∃ order, (ofEdges edges).topologicalOrder = .ok order ∧ order.Nodup ∧
      ["a", "b"].Sublist order ∧ ["b", "c"].Sublist order) ∧
    ∃ key ∈ ["a", "b", "c"], (ofEdges (edges ++ [("c", "a")])).topologicalOrder =
      .error (.cycleDetected "poset of 3 keys" (quote key)) := by
  intro edges
  constructor
  · have hdeclared : (ofEdges edges).Declared := .ofEdges edges
    have hacyclic := hdeclared.valid.not_onCycle_of_ascending ["a", "b", "c"].idxOf (by decide)
    obtain ⟨hok, hsorts, -, -⟩ := hdeclared.topologicalOrder_spec
    obtain ⟨order, hsorted⟩ := hok.2 hacyclic
    have hsorted' := hsorts order hsorted
    exact ⟨order, hsorted, hsorted'.nodup, hsorted'.forward "a" "b" (by decide),
      hsorted'.forward "b" "c" (by decide)⟩
  · have hdeclared : (ofEdges (edges ++ [("c", "a")])).Declared := .ofEdges _
    have hcycle : OnCycle (ofEdges (edges ++ [("c", "a")])).successors "a" :=
      .head (b := "c") (by decide) (.single (by decide))
    obtain ⟨hok, -, hfault, -⟩ := hdeclared.topologicalOrder_spec
    cases hresult : (ofEdges (edges ++ [("c", "a")])).topologicalOrder with
    | ok order => exact absurd hcycle (hok.1 ⟨order, hresult⟩ "a")
    | error fault =>
      obtain ⟨key, hkey, rfl, -⟩ := hfault fault hresult
      have hname : (ofEdges (edges ++ [("c", "a")])).describe = "poset of 3 keys" := by decide
      exact ⟨key, hkey, by rw [hname]⟩

end Downset.Poset
