import Downset.Proofs.Poset.Chains

/-!
# What was declared

An account of a finite order holds what was said about it: the keys as they were mentioned, and the
pairs of a key and one above it. The keys of the order are those of the account, each at its first
place. Until the order is normalised its steps are the pairs of the account, and afterwards they are
some of them. Neither a key nor an edge that is declared changes a number or takes an edge away.
-/

namespace Downset

inductive Declaration (K : Type)
  | key (key : K)
  | edge (lower upper : K)
  | rows (rows : List (List K))
  | edges (edges : List (K × K))
  | normalize

structure Account (K : Type) where
  /-- The keys in the order in which they were mentioned, with repeats. -/
  mentioned : List K
  /-- The pairs of which the first key was declared to be below the second. -/
  pairs : List (K × K)
  isNormalized : Bool

namespace Account

variable {K : Type}

def empty : Account K := ⟨[], [], false⟩

def ends (edges : List (K × K)) : List K := edges.flatMap fun edge => [edge.1, edge.2]

def add (account : Account K) : Declaration K → Account K
  | .key key => { account with mentioned := account.mentioned ++ [key] }
  | .edge lower upper =>
    { account with
      mentioned := account.mentioned ++ [lower, upper]
      pairs := account.pairs ++ [(lower, upper)] }
  | .rows rows => ⟨rows.flatten, rows.flatMap Poset.chainPairs, true⟩
  | .edges edges => ⟨ends edges, edges, false⟩
  | .normalize => { account with isNormalized := true }

def of (declarations : List (Declaration K)) : Account K := declarations.foldl add empty

end Account

namespace Poset

variable {K : Type} [DecidableEq K] {poset : Poset K} {account : Account K}
  {mentioned again : List K} {rows : List (List K)}

def declare (poset : Poset K) : Declaration K → Poset K
  | .key key => poset.addKey key
  | .edge lower upper => poset.addEdge lower upper
  | .rows rows => ofRows rows
  | .edges edges => ofEdges edges
  | .normalize => poset.normalize

def ofDeclarations (declarations : List (Declaration K)) : Poset K := declarations.foldl declare ∅

theorem Declared.declare (h : poset.Declared) (declaration : Declaration K) :
    (poset.declare declaration).Declared := by
  cases declaration with
  | key key => exact h.addKey key
  | edge lower upper => exact h.addEdge lower upper
  | rows rows => exact .ofRows rows
  | edges edges => exact .ofEdges edges
  | normalize => exact h.normalize

/-- The keys of the order are those of a list, each at its first place. -/
def Mentions (poset : Poset K) (mentioned : List K) : Prop :=
  poset.keys = (OrderedSet.ofList mentioned).toList

namespace Mentions

theorem addKey (h : poset.Mentions mentioned) (key : K) :
    (poset.addKey key).Mentions (mentioned ++ [key]) := by
  have hmem : key ∈ poset.keys ↔ key ∈ OrderedSet.ofList mentioned := by
    rw [h, OrderedSet.mem_def]
  unfold Mentions at h ⊢
  rw [OrderedSet.ofList_append, OrderedSet.insertMany_cons, OrderedSet.insertMany_nil]
  by_cases hkey : key ∈ poset.keys
  · rw [addKey_of_mem hkey, OrderedSet.insert_of_mem (hmem.1 hkey), h]
  · rw [addKey_of_not_mem hkey,
      OrderedSet.toList_insert_of_not_mem fun hold => hkey (hmem.2 hold), h]

theorem addKeys (h : poset.Mentions mentioned) (keys : List K) :
    (poset.addKeys keys).Mentions (mentioned ++ keys) := by
  induction keys generalizing poset mentioned with
  | nil => rwa [List.append_nil]
  | cons key rest ih =>
    rw [List.append_cons]
    exact ih (h.addKey key)

theorem addEdge (h : poset.Mentions mentioned) (lower upper : K) :
    (poset.addEdge lower upper).Mentions (mentioned ++ [lower, upper]) := by
  rw [List.append_cons]
  exact (h.addKey lower).addKey upper

theorem addEdges (h : poset.Mentions mentioned) (edges : List (K × K)) :
    (poset.addEdges edges).Mentions (mentioned ++ Account.ends edges) := by
  induction edges generalizing poset mentioned with
  | nil => rwa [Account.ends, List.flatMap_nil, List.append_nil]
  | cons edge rest ih =>
    rw [Account.ends, List.flatMap_cons, ← List.append_assoc]
    exact ih (h.addEdge edge.1 edge.2)

theorem of_again (h : poset.Mentions (mentioned ++ again))
    (hagain : ∀ key ∈ again, key ∈ mentioned) :
    poset.Mentions mentioned := by
  unfold Mentions at h ⊢
  rw [h, OrderedSet.ofList_append, OrderedSet.insertMany_of_forall_mem]
  exact fun key hkey => OrderedSet.mem_ofList.2 (hagain key hkey)

theorem chains (rows : List (List K)) : (chains rows).Mentions rows.flatten := by
  have hempty : (∅ : Poset K).Mentions [] := rfl
  refine ((hempty.addKeys rows.flatten).addEdges (rows.flatMap chainPairs)).of_again ?_
  intro key hkey
  obtain ⟨⟨lower, upper⟩, hpair, hkey⟩ := List.mem_flatMap.1 hkey
  obtain ⟨row, hrow, hpair⟩ := List.mem_flatMap.1 hpair
  exact List.mem_flatten.2 ⟨row, hrow, (mem_chainPairs.1 hpair).subset hkey⟩

end Mentions

/-- The order is as it was declared. -/
structure Tallies (poset : Poset K) (account : Account K) : Prop where
  keys : poset.Mentions account.mentioned
  less : ∀ lower, ∀ upper ∈ poset.successors lower, (lower, upper) ∈ account.pairs
  steps : account.isNormalized = false → ∀ lower upper,
    upper ∈ poset.successors lower ↔ (lower, upper) ∈ account.pairs

theorem tallies_empty : (∅ : Poset K).Tallies .empty := by
  have hnone : ∀ lower upper, upper ∉ (∅ : Poset K).successors lower :=
    fun _ _ => List.not_mem_nil
  refine ⟨rfl, fun lower upper hstep => absurd hstep (hnone lower upper), fun _ lower upper => ?_⟩
  exact iff_of_false (hnone lower upper) List.not_mem_nil

/-- What is declared is seen in the order, and nothing else is. -/
theorem Tallies.declare (h : poset.Tallies account) (hvalid : poset.Valid)
    (declaration : Declaration K) :
    (poset.declare declaration).Tallies (account.add declaration) := by
  obtain ⟨hkeys, hless, hsteps⟩ := h
  cases declaration with
  | key key =>
    have hmem : ∀ lower upper, upper ∈ (poset.addKey key).successors lower ↔
        upper ∈ poset.successors lower := fun _ _ => hvalid.mem_successors_addKey key
    refine ⟨hkeys.addKey key, ?_, fun hnot lower upper => ?_⟩
    · exact fun lower upper hstep => hless lower upper ((hmem lower upper).1 hstep)
    · exact (hmem lower upper).trans (hsteps hnot lower upper)
  | edge lower upper =>
    have hmem : ∀ key other, other ∈ (poset.addEdge lower upper).successors key ↔
        other ∈ poset.successors key ∨ (key, other) ∈ [(lower, upper)] := by
      intro key other
      rw [hvalid.mem_successors_addEdge, List.mem_singleton, Prod.mk.injEq]
    refine ⟨hkeys.addEdge lower upper, fun key other hstep => ?_, fun hnot key other => ?_⟩
    · exact List.mem_append.2 (((hmem key other).1 hstep).imp_left (hless key other))
    · refine (hmem key other).trans ?_
      exact (or_congr_left (hsteps hnot key other)).trans List.mem_append.symm
  | rows rows =>
    refine ⟨Mentions.chains rows, fun lower upper hstep => ?_, fun hnot => by cases hnot⟩
    have hchain : upper ∈ (chains rows).successors lower :=
      ((declared_chains rows).valid.mem_successors_normalize.1 hstep).1
    obtain ⟨row, hrow, hpair⟩ := mem_successors_chains.1 hchain
    exact List.mem_flatMap.2 ⟨row, hrow, mem_chainPairs.2 hpair⟩
  | edges edges =>
    have hmem : ∀ lower upper, upper ∈ (ofEdges edges).successors lower ↔
        (lower, upper) ∈ edges := by
      intro lower upper
      rw [ofEdges, valid_empty.mem_successors_addEdges]
      exact or_iff_right List.not_mem_nil
    have hempty : (∅ : Poset K).Mentions [] := rfl
    exact ⟨hempty.addEdges edges, fun lower upper => (hmem lower upper).1, fun _ => hmem⟩
  | normalize =>
    refine ⟨hkeys, fun lower upper hstep => ?_, fun hnot => by cases hnot⟩
    exact hless lower upper (hvalid.mem_successors_normalize.1 hstep).1

/-- Every sequence of declarations makes an order that is as it was declared. -/
theorem tallies_ofDeclarations (declarations : List (Declaration K)) :
    (ofDeclarations declarations).Declared ∧
      (ofDeclarations declarations).Tallies (.of declarations) := by
  have hrun : ∀ (poset : Poset K) (account : Account K), poset.Declared → poset.Tallies account →
      (declarations.foldl Poset.declare poset).Declared ∧
        (declarations.foldl Poset.declare poset).Tallies
          (declarations.foldl Account.add account) := by
    induction declarations with
    | nil => exact fun _ _ hdeclared h => ⟨hdeclared, h⟩
    | cons declaration rest ih =>
      intro poset account hdeclared h
      exact ih _ _ (hdeclared.declare declaration) (h.declare hdeclared.valid declaration)
  exact hrun ∅ .empty .empty tallies_empty

/-- The keys have kept their numbers, and each number the numbers above it. -/
structure Keeps (poset after : Poset K) : Prop where
  keys : poset.keys <+: after.keys
  next : ∀ u, poset.graph.next u <+: after.graph.next u

theorem keeps_addKey (poset : Poset K) (key : K) : poset.Keeps (poset.addKey key) :=
  ⟨prefix_addKey, fun _ => by rw [next_addKey]⟩

theorem Valid.keeps_addEdge (h : poset.Valid) (lower upper : K) :
    poset.Keeps (poset.addEdge lower upper) := by
  have hkeys : poset.keys <+: ((poset.addKey lower).addKey upper).keys :=
    prefix_addKey.trans prefix_addKey
  refine ⟨hkeys, fun u => ?_⟩
  have hlower : lower ∈ ((poset.addKey lower).addKey upper).keys :=
    mem_keys_addKey.2 (.inl (mem_keys_addKey.2 (.inr rfl)))
  have hboth := (h.addKey lower).addKey upper
  rw [addEdge_eq_insertEdge, next_insertEdge (hboth.size ▸ List.idxOf_lt_length_of_mem hlower),
    next_addKey, next_addKey]
  split
  · exact List.prefix_append _ _
  · exact List.prefix_refl _

end Poset

end Downset
