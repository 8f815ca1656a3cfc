import Downset.Poset.Normalize
import Downset.Proofs.Digraph.Normalize
import Downset.Proofs.Order.Essential

/-!
# Finite orders as declared

Each way to declare a finite order keeps its keys distinct, its lists of numbers without repeats
and its numbers in range. What is declared is seen in the successors of the keys: a key adds none,
an edge adds one, and normalising keeps the essential ones.
-/

namespace Downset.Poset

open Relation

variable {K : Type}

/-- Every key has its place and its list, and every number in a list is that of a key. -/
structure Valid (poset : Poset K) : Prop where
  nodup : poset.keys.Nodup
  size : poset.above.size = poset.keys.length
  bound : ∀ u, ∀ v ∈ poset.graph.next u, v < poset.keys.length
  rows : ∀ u, (poset.graph.next u).Nodup

theorem valid_empty : (∅ : Poset K).Valid := by
  have hnext : ∀ u, (∅ : Poset K).graph.next u = [] := fun _ => rfl
  refine ⟨List.nodup_nil, rfl, ?_, ?_⟩
  · intro u v hv
    rw [hnext] at hv
    exact absurd hv List.not_mem_nil
  · intro u
    rw [hnext]
    exact List.nodup_nil

variable {poset : Poset K} {key other lower upper : K} {u v x y : Nat}

theorem Valid.exists_key (h : poset.Valid) (hu : u ∈ poset.graph.vertices) :
    ∃ key, poset.keys[u]? = some key := by
  have hlt : u < poset.above.size := List.mem_range.1 hu
  rw [h.size] at hlt
  exact ⟨_, List.getElem?_eq_getElem hlt⟩

def insertEdge (poset : Poset K) (u v : Nat) : Poset K :=
  { poset with above := poset.above.modify u fun row => if v ∈ row then row else row ++ [v] }

def eraseEdge (poset : Poset K) (u v : Nat) : Poset K :=
  { poset with above := (poset.graph.eraseEdge u v).rows }

theorem next_insertEdge (hu : u < poset.above.size) :
    (poset.insertEdge u v).graph.next x =
      if x = u ∧ v ∉ poset.graph.next x then poset.graph.next x ++ [v] else poset.graph.next x := by
  have hnext : ∀ x, poset.graph.next x = (⟨poset.above⟩ : Digraph).next x := fun _ => rfl
  rw [insertEdge, graph, Digraph.next_modify]
  by_cases hx : x = u
  · subst hx
    by_cases hv : v ∈ (⟨poset.above⟩ : Digraph).next x <;> simp [hu, hnext, hv]
  · simp [hx, hnext]

theorem mem_next_insertEdge (hu : u < poset.above.size) :
    y ∈ (poset.insertEdge u v).graph.next x ↔ y ∈ poset.graph.next x ∨ x = u ∧ y = v := by
  rw [next_insertEdge hu]
  split
  · next hcond => simp [hcond.1]
  · next hcond =>
    refine (or_iff_left_of_imp ?_).symm
    rintro ⟨rfl, rfl⟩
    exact Classical.byContradiction fun hnot => hcond ⟨rfl, hnot⟩

theorem Valid.insertEdge (h : poset.Valid) (hu : u < poset.keys.length)
    (hv : v < poset.keys.length) : (poset.insertEdge u v).Valid := by
  have hu' : u < poset.above.size := h.size ▸ hu
  refine ⟨h.nodup, ?_, ?_, ?_⟩
  · simp [Poset.insertEdge, h.size]
  · intro x y hy
    rcases (mem_next_insertEdge hu').1 hy with hy | ⟨rfl, rfl⟩
    · exact h.bound x y hy
    · exact hv
  · intro x
    rw [next_insertEdge hu']
    split
    · next hcond =>
      refine List.nodup_append.2 ⟨h.rows x, by simp, ?_⟩
      rintro y hy z hz rfl
      exact hcond.2 (List.mem_singleton.1 hz ▸ hy)
    · exact h.rows x

theorem Valid.eraseEdge (h : poset.Valid) : (poset.eraseEdge u v).Valid := by
  have hmem : ∀ x y, y ∈ (poset.eraseEdge u v).graph.next x → y ∈ poset.graph.next x :=
    fun x y hy => ((Digraph.mem_next_eraseEdge (h.rows u)).1 hy).1
  refine ⟨h.nodup, ?_, fun x y hy => h.bound x y (hmem x y hy), ?_⟩
  · simp [Poset.eraseEdge, Digraph.eraseEdge, graph, h.size]
  · intro x
    change ((poset.graph.eraseEdge u v).next x).Nodup
    rw [Digraph.eraseEdge, Digraph.next_modify]
    split
    · exact (h.rows x).erase v
    · exact h.rows x

theorem Valid.normalize (h : poset.Valid) : poset.normalize.Valid := by
  refine ⟨h.nodup, ?_, ?_, fun u => Digraph.nodup_next_normalize (h.rows u)⟩
  · exact Digraph.size_normalize.trans h.size
  · intro u v hv
    exact h.bound u v (Digraph.mem_next_normalize.1 hv).1

variable [DecidableEq K]

theorem addKey_of_mem (h : key ∈ poset.keys) : poset.addKey key = poset := if_pos h

theorem addKey_of_not_mem (h : key ∉ poset.keys) :
    poset.addKey key = ⟨poset.keys ++ [key], poset.above.push []⟩ := if_neg h

theorem mem_keys_addKey : other ∈ (poset.addKey key).keys ↔ other ∈ poset.keys ∨ other = key := by
  by_cases h : key ∈ poset.keys
  · rw [addKey_of_mem h]
    exact ⟨.inl, fun hor => hor.elim id fun heq => heq ▸ h⟩
  · rw [addKey_of_not_mem h]
    simp

theorem mem_keys_addEdge : other ∈ (poset.addEdge lower upper).keys ↔
    other ∈ poset.keys ∨ other = lower ∨ other = upper := by
  change other ∈ ((poset.addKey lower).addKey upper).keys ↔ _
  rw [mem_keys_addKey, mem_keys_addKey, or_assoc]

theorem prefix_addKey : poset.keys <+: (poset.addKey key).keys := by
  by_cases h : key ∈ poset.keys
  · rw [addKey_of_mem h]
  · rw [addKey_of_not_mem h]
    exact List.prefix_append _ _

theorem getElem?_addKey {added : K} (h : poset.keys[u]? = some key) :
    (poset.addKey added).keys[u]? = some key := by
  obtain ⟨more, hmore⟩ : poset.keys <+: (poset.addKey added).keys := prefix_addKey
  rw [← hmore, List.getElem?_append_left (List.getElem?_eq_some_iff.1 h).1, h]

theorem next_addKey : (poset.addKey key).graph.next u = poset.graph.next u := by
  by_cases h : key ∈ poset.keys
  · rw [addKey_of_mem h]
  · rw [addKey_of_not_mem h]
    simp only [graph, Digraph.next, Array.getD_eq_getD_getElem?, Array.getElem?_push]
    split
    · next heq => simp [heq]
    · rfl

theorem successors_of_not_mem (h : key ∉ poset.keys) : poset.successors key = [] := by
  have hnone : poset.number? key = none := List.idxOf?_eq_none_iff.2 h
  rw [successors, hnone]

namespace Valid

theorem number?_eq_some_iff (h : poset.Valid) :
    poset.number? key = some u ↔ poset.keys[u]? = some key := by
  simp only [number?, List.idxOf?, List.findIdx?_eq_some_iff_getElem, List.getElem?_eq_some_iff,
    beq_iff_eq]
  constructor
  · rintro ⟨hlt, heq, _⟩
    exact ⟨hlt, heq⟩
  · rintro ⟨hlt, rfl⟩
    refine ⟨hlt, rfl, fun j hj heq => ?_⟩
    have hsame := (h.nodup.getElem_inj_iff).1 heq
    omega

theorem mem_successors (h : poset.Valid) :
    other ∈ poset.successors key ↔ ∃ u v, poset.keys[u]? = some key ∧ poset.keys[v]? = some other ∧
      v ∈ poset.graph.next u := by
  have hnumber : ∀ u, poset.number? key = some u ↔ poset.keys[u]? = some key :=
    fun u => h.number?_eq_some_iff
  unfold successors
  cases hkey : poset.number? key with
  | none =>
    refine iff_of_false List.not_mem_nil ?_
    rintro ⟨u, _, hu, _⟩
    cases hkey.symm.trans ((hnumber u).2 hu)
  | some n =>
    simp only [List.mem_filterMap]
    constructor
    · rintro ⟨v, hv, hother⟩
      exact ⟨n, v, (hnumber n).1 hkey, hother, hv⟩
    · rintro ⟨u, v, hu, hother, hv⟩
      have heq := hkey.symm.trans ((hnumber u).2 hu)
      rw [Option.some.injEq] at heq
      exact ⟨v, heq ▸ hv, hother⟩

theorem idxOf_eq (h : poset.Valid) (hkey : poset.keys[u]? = some key) :
    poset.keys.idxOf key = u := by
  obtain ⟨hlt, rfl⟩ := List.getElem?_eq_some_iff.1 hkey
  exact h.nodup.idxOf_getElem u hlt

theorem addKey (h : poset.Valid) (key : K) : (poset.addKey key).Valid := by
  by_cases hmem : key ∈ poset.keys
  · rw [addKey_of_mem hmem]
    exact h
  refine ⟨?_, ?_, ?_, ?_⟩
  · rw [addKey_of_not_mem hmem]
    refine List.nodup_append.2 ⟨h.nodup, by simp, ?_⟩
    rintro x hx y hy rfl
    exact hmem (List.mem_singleton.1 hy ▸ hx)
  · rw [addKey_of_not_mem hmem]
    simp [h.size]
  · intro u v hv
    rw [next_addKey] at hv
    exact Nat.lt_of_lt_of_le (h.bound u v hv) prefix_addKey.length_le
  · intro u
    rw [next_addKey]
    exact h.rows u

/-- A key that is declared has no successors yet, and those of the others stay. -/
theorem mem_successors_addKey (h : poset.Valid) (added : K) :
    other ∈ (poset.addKey added).successors key ↔ other ∈ poset.successors key := by
  have hkeys : ∀ u, u < poset.keys.length → (poset.addKey added).keys[u]? = poset.keys[u]? := by
    intro u hu
    obtain ⟨more, hmore⟩ : poset.keys <+: (poset.addKey added).keys := prefix_addKey
    rw [← hmore, List.getElem?_append_left hu]
  rw [(h.addKey added).mem_successors, h.mem_successors]
  simp only [next_addKey]
  refine exists_congr fun u => exists_congr fun v => ?_
  have hboth : v ∈ poset.graph.next u → u < poset.keys.length ∧ v < poset.keys.length := by
    intro hv
    have hu := List.mem_range.1 (Digraph.mem_vertices_of_mem_next hv)
    exact ⟨h.size ▸ hu, h.bound u v hv⟩
  constructor
  · rintro ⟨hu, hv, hedge⟩
    obtain ⟨hltu, hltv⟩ := hboth hedge
    exact ⟨hkeys u hltu ▸ hu, hkeys v hltv ▸ hv, hedge⟩
  · rintro ⟨hu, hv, hedge⟩
    obtain ⟨hltu, hltv⟩ := hboth hedge
    exact ⟨(hkeys u hltu).trans hu, (hkeys v hltv).trans hv, hedge⟩

theorem number_inj (h : poset.Valid) (hx : poset.keys[x]? = some key)
    (hy : poset.keys[y]? = some other) : x = y ↔ key = other := by
  constructor
  · rintro rfl
    exact Option.some.inj (hx.symm.trans hy)
  · rintro rfl
    exact (h.idxOf_eq hx).symm.trans (h.idxOf_eq hy)

theorem nodup_successors (h : poset.Valid) (key : K) : (poset.successors key).Nodup := by
  unfold successors
  split
  · refine List.Nodup.filterMap (fun x y other hx hy => ?_) (h.rows _)
    exact (h.number_inj hx hy).2 rfl
  · exact List.nodup_nil

/-- An edge between two numbers adds one successor to the lower key. -/
theorem mem_successors_insertEdge (h : poset.Valid) (hu : poset.keys[u]? = some lower)
    (hv : poset.keys[v]? = some upper) :
    other ∈ (poset.insertEdge u v).successors key ↔
      other ∈ poset.successors key ∨ key = lower ∧ other = upper := by
  have hltu := (List.getElem?_eq_some_iff.1 hu).1
  have hltv := (List.getElem?_eq_some_iff.1 hv).1
  have hsize : u < poset.above.size := h.size ▸ hltu
  rw [(h.insertEdge hltu hltv).mem_successors, h.mem_successors]
  simp only [mem_next_insertEdge hsize]
  constructor
  · rintro ⟨x, y, hx, hy, hold | ⟨rfl, rfl⟩⟩
    · exact .inl ⟨x, y, hx, hy, hold⟩
    · exact .inr ⟨Option.some.inj (hx.symm.trans hu), Option.some.inj (hy.symm.trans hv)⟩
  · rintro (⟨x, y, hx, hy, hold⟩ | ⟨rfl, rfl⟩)
    · exact ⟨x, y, hx, hy, .inl hold⟩
    · exact ⟨u, v, hu, hv, .inr ⟨rfl, rfl⟩⟩

theorem mem_successors_eraseEdge (h : poset.Valid) (hu : poset.keys[u]? = some lower)
    (hv : poset.keys[v]? = some upper) :
    other ∈ (poset.eraseEdge u v).successors key ↔
      other ∈ without poset.successors lower upper key := by
  have hnext : ∀ x y, y ∈ (poset.eraseEdge u v).graph.next x ↔
      y ∈ poset.graph.next x ∧ ¬ (x = u ∧ y = v) :=
    fun x y => Digraph.mem_next_eraseEdge (h.rows u)
  rw [mem_without, h.eraseEdge.mem_successors, h.mem_successors]
  simp only [hnext]
  constructor
  · rintro ⟨x, y, hx, hy, hedge, hnot⟩
    refine ⟨⟨x, y, hx, hy, hedge⟩, fun heq => hnot ?_⟩
    exact ⟨(h.number_inj hx hu).2 heq.1, (h.number_inj hy hv).2 heq.2⟩
  · rintro ⟨⟨x, y, hx, hy, hedge⟩, hnot⟩
    refine ⟨x, y, hx, hy, hedge, fun heq => hnot ?_⟩
    exact ⟨(h.number_inj hx hu).1 heq.1, (h.number_inj hy hv).1 heq.2⟩

end Valid

theorem getElem?_idxOf (hkey : key ∈ poset.keys) :
    poset.keys[poset.keys.idxOf key]? = some key := by
  rw [List.getElem?_eq_getElem (List.idxOf_lt_length_of_mem hkey), List.getElem_idxOf]

theorem addEdge_eq_insertEdge :
    poset.addEdge lower upper = ((poset.addKey lower).addKey upper).insertEdge
      (((poset.addKey lower).addKey upper).keys.idxOf lower)
      (((poset.addKey lower).addKey upper).keys.idxOf upper) := rfl

namespace Valid

theorem addEdge_spec (h : poset.Valid) (lower upper : K) :
    (poset.addEdge lower upper).Valid ∧ ∀ key other,
      other ∈ (poset.addEdge lower upper).successors key ↔
        other ∈ poset.successors key ∨ key = lower ∧ other = upper := by
  have hboth := (h.addKey lower).addKey upper
  have hlower : lower ∈ ((poset.addKey lower).addKey upper).keys := by
    rw [mem_keys_addKey, mem_keys_addKey]
    exact .inl (.inr rfl)
  have hupper : upper ∈ ((poset.addKey lower).addKey upper).keys := by
    rw [mem_keys_addKey]
    exact .inr rfl
  rw [addEdge_eq_insertEdge]
  refine ⟨hboth.insertEdge (List.idxOf_lt_length_of_mem hlower)
    (List.idxOf_lt_length_of_mem hupper), ?_⟩
  intro key other
  rw [hboth.mem_successors_insertEdge (getElem?_idxOf hlower) (getElem?_idxOf hupper),
    (h.addKey lower).mem_successors_addKey, h.mem_successors_addKey]

theorem addEdge (h : poset.Valid) (lower upper : K) : (poset.addEdge lower upper).Valid :=
  (h.addEdge_spec lower upper).1

theorem mem_successors_addEdge (h : poset.Valid) :
    other ∈ (poset.addEdge lower upper).successors key ↔
      other ∈ poset.successors key ∨ key = lower ∧ other = upper :=
  (h.addEdge_spec lower upper).2 key other

/-- Keys lead to each other exactly if their numbers do. -/
theorem reaches_iff (h : poset.Valid) (hu : poset.keys[u]? = some key)
    (hv : poset.keys[v]? = some other) :
    Reaches poset.successors key other ↔ Reaches poset.graph.next u v := by
  constructor
  · intro hreaches
    induction hreaches using ReflTransGen.head_induction_on generalizing u with
    | refl => exact (h.number_inj hu hv).2 rfl ▸ .refl
    | head step _ ih =>
      obtain ⟨x, y, hx, hy, hedge⟩ := h.mem_successors.1 step
      have heq : x = u := (h.number_inj hx hu).2 rfl
      exact .head (heq ▸ hedge) (ih hy)
  · intro hreaches
    induction hreaches using ReflTransGen.head_induction_on generalizing key with
    | refl => exact (h.number_inj hu hv).1 rfl ▸ .refl
    | head step _ ih =>
      obtain ⟨middle, hmiddle⟩ : ∃ middle, poset.keys[_]? = some middle :=
        ⟨_, List.getElem?_eq_getElem (h.bound _ _ step)⟩
      exact .head (h.mem_successors.2 ⟨_, _, hu, hmiddle, step⟩) (ih hmiddle)

theorem onCycle_iff (h : poset.Valid) (hu : poset.keys[u]? = some key) :
    OnCycle poset.successors key ↔ OnCycle poset.graph.next u := by
  constructor
  · intro hcycle
    obtain ⟨other, hstep, hback⟩ := TransGen.head'_iff.1 hcycle
    obtain ⟨x, y, hx, hy, hedge⟩ := h.mem_successors.1 hstep
    have heq : x = u := (h.number_inj hx hu).2 rfl
    exact .head' (heq ▸ hedge) ((h.reaches_iff hy hu).1 hback)
  · intro hcycle
    obtain ⟨v, hedge, hback⟩ := TransGen.head'_iff.1 hcycle
    obtain ⟨other, hv⟩ : ∃ other, poset.keys[v]? = some other :=
      ⟨_, List.getElem?_eq_getElem (h.bound u v hedge)⟩
    exact .head' (h.mem_successors.2 ⟨u, v, hu, hv, hedge⟩) ((h.reaches_iff hv hu).2 hback)

/-- Normalising keeps just the essential successors. -/
theorem mem_successors_normalize (h : poset.Valid) :
    other ∈ poset.normalize.successors key ↔ Essential poset.successors key other := by
  have hbridge : ∀ u v, poset.keys[u]? = some key → poset.keys[v]? = some other →
      (Reaches (poset.graph.eraseEdge u v).next u v ↔
        Reaches (without poset.successors key other) key other) := by
    intro u v hu hv
    change Reaches (poset.eraseEdge u v).graph.next u v ↔ _
    rw [← h.eraseEdge.reaches_iff hu hv]
    have hmem : ∀ x y, y ∈ (poset.eraseEdge u v).successors x ↔
        y ∈ without poset.successors key other x := fun x y => h.mem_successors_eraseEdge hu hv
    exact ⟨ReflTransGen.mono (fun x y => (hmem x y).1) _ _, ReflTransGen.mono (fun x y => (hmem x y).2) _ _⟩
  rw [h.normalize.mem_successors, Essential, h.mem_successors]
  constructor
  · rintro ⟨u, v, hu, hv, hedge⟩
    obtain ⟨hedge, hkept⟩ := Digraph.mem_next_normalize.1 hedge
    refine ⟨⟨u, v, hu, hv, hedge⟩, hkept.imp (h.number_inj hu hv).1 ?_⟩
    exact fun hnot hother => hnot ((hbridge u v hu hv).2 hother)
  · rintro ⟨⟨u, v, hu, hv, hedge⟩, hkept⟩
    refine ⟨u, v, hu, hv, Digraph.mem_next_normalize.2 ⟨hedge, hkept.imp (h.number_inj hu hv).2 ?_⟩⟩
    exact fun hnot hother => hnot ((hbridge u v hu hv).1 hother)

end Valid

/-! ## Declarations -/

/-- The order was declared key by key and edge by edge, and normalised in between or not. -/
inductive Declared : Poset K → Prop
  | empty : Declared ∅
  | addKey {poset : Poset K} (h : Declared poset) (key : K) : Declared (poset.addKey key)
  | addEdge {poset : Poset K} (h : Declared poset) (lower upper : K) :
      Declared (poset.addEdge lower upper)
  | normalize {poset : Poset K} (h : Declared poset) : Declared poset.normalize

namespace Declared

theorem valid (h : poset.Declared) : poset.Valid := by
  induction h with
  | empty => exact valid_empty
  | addKey _ key ih => exact ih.addKey key
  | addEdge _ lower upper ih => exact ih.addEdge lower upper
  | normalize _ ih => exact ih.normalize

theorem addKeys (h : poset.Declared) (keys : List K) : (poset.addKeys keys).Declared := by
  induction keys generalizing poset with
  | nil => exact h
  | cons key rest ih => exact ih (h.addKey key)

theorem addEdges (h : poset.Declared) (edges : List (K × K)) : (poset.addEdges edges).Declared := by
  induction edges generalizing poset with
  | nil => exact h
  | cons edge rest ih => exact ih (h.addEdge edge.1 edge.2)

theorem ofEdges (edges : List (K × K)) : (Poset.ofEdges edges).Declared := empty.addEdges edges

theorem ofRows (rows : List (List K)) : (Poset.ofRows rows).Declared :=
  ((empty.addKeys rows.flatten).addEdges (rows.flatMap chainPairs)).normalize

end Declared

end Downset.Poset
