import Downset.Arena.Basic

/-!
# Combined values

The combined value of a query node is the union of its own values and of those of all
nodes below it. One sweep computes it and enters every node at most once: a node that is
met again adds nothing, because its values are in the union already. What a node collected
is stored with it, together with whether it may be used again. It may not if something was
left out of it because the sweep had met it before, for then it is only a part.

A search that never enters a point twice ends because fewer points remain after each entry:
`remaining all seen` is the number of points not yet seen.
-/

namespace Downset

section Remaining

variable {α : Type} [DecidableEq α]

/-- The number of entries of `all` that are not in `seen`. -/
def remaining (all seen : List α) : Nat := (all.filter fun a => decide (a ∉ seen)).length

theorem remaining_le (all : List α) {seen seen' : List α} (h : ∀ a ∈ seen, a ∈ seen') :
    remaining all seen' ≤ remaining all seen := by
  induction all with
  | nil => exact Nat.le_refl _
  | cons a all ih =>
    simp only [remaining, List.filter_cons, decide_eq_true_eq] at ih ⊢
    by_cases ha : a ∈ seen
    · have ha' := h a ha
      simpa [ha, ha'] using ih
    · by_cases ha' : a ∈ seen'
      · simp only [ha, ha', not_true, not_false_eq_true, if_true, if_false, List.length_cons]
        omega
      · simp only [ha, ha', not_false_eq_true, if_true, List.length_cons]
        omega

theorem remaining_lt {all seen seen' : List α} {a : α} (hall : a ∈ all) (hnew : a ∉ seen)
    (hseen : a ∈ seen') (h : ∀ b ∈ seen, b ∈ seen') :
    remaining all seen' < remaining all seen := by
  induction all with
  | nil => cases hall
  | cons b all ih =>
    have hle := remaining_le all h
    by_cases hb : b = a
    · subst hb
      simp only [remaining, List.filter_cons, hnew, hseen, not_true, not_false_eq_true,
        decide_true, decide_false, if_true, Bool.false_eq_true, if_false, List.length_cons] at hle ⊢
      omega
    · have hlt := ih ((List.mem_cons.1 hall).resolve_left (Ne.symm hb))
      simp only [remaining, List.filter_cons, decide_eq_true_eq] at hlt ⊢
      by_cases hs : b ∈ seen
      · have hs' := h b hs
        simpa [hs, hs'] using hlt
      · by_cases hs' : b ∈ seen'
        · simp only [hs, hs', not_true, not_false_eq_true, if_true, if_false, List.length_cons]
          omega
        · simp only [hs, hs', not_false_eq_true, if_true, List.length_cons]
          omega

theorem lex_lt_of_le_of_lt {m m' n n' : Nat} (hm : m' ≤ m) (hn : n' < n) :
    Prod.Lex (· < ·) (· < ·) (m', n') (m, n) := by
  rcases Nat.lt_or_eq_of_le hm with h | h
  · exact .left _ _ h
  · exact h ▸ .right _ hn

end Remaining

/-- What was collected at a node, and whether that is all there is. -/
structure Cache (V : Type) where
  values : OrderedSet V
  isFresh : Bool

/-- The state of one sweep over the nodes below a node. -/
structure Sweep (V : Type) where
  caches : Table NodeId (Cache V)
  seen : List NodeId
  /-- The nodes at which something was stored by this sweep, latest first. -/
  stored : List NodeId

namespace Sweep

variable {V : Type}

def start (caches : Table NodeId (Cache V)) : Sweep V := ⟨caches, [], []⟩

def meet (sweep : Sweep V) (id : NodeId) : Sweep V := { sweep with seen := id :: sweep.seen }

def store (sweep : Sweep V) (id : NodeId) (cache : Cache V) : Sweep V :=
  { sweep with
    caches := sweep.caches.insert id cache
    stored := id :: sweep.stored }

/-- What is stored at a node, if it is all there is. -/
def fresh? (sweep : Sweep V) (id : NodeId) : Option (OrderedSet V) :=
  match sweep.caches.find? id with
  | some cache => if cache.isFresh then some cache.values else none
  | none => none

end Sweep

structure Collected (V : Type) where
  cache : Cache V
  sweep : Sweep V

namespace Arena

variable {K V : Type}

theorem mem_ids_of_node_eq_query {arena : Arena K V} {id : NodeId} {key : K}
    {values : OrderedSet V} {below above : OrderedSet NodeId}
    (h : arena.node id = .query key values below above) : id ∈ arena.ids := by
  refine List.mem_map.2 ⟨id.index, List.mem_range.2 ?_, rfl⟩
  refine Classical.byContradiction fun hge => ?_
  have hsink : arena.node id = .sink := by
    rw [node, Array.getD_eq_getD_getElem?, Array.getElem?_eq_none (Nat.le_of_not_lt hge)]
    rfl
  rw [hsink] at h
  cases h

variable [DecidableEq V]

/-- Adds to `found` what the nodes of a list and all nodes below them hold. A node that the
sweep has met before is left out, and then what is collected is not fresh. -/
def collectFrom (arena : Arena K V) (ids : List NodeId) (found : Cache V) (sweep : Sweep V) :
    { result : Collected V // ∀ id ∈ sweep.seen, id ∈ result.sweep.seen } :=
  match ids with
  | [] => ⟨⟨found, sweep⟩, fun _ h => h⟩
  | id :: rest =>
    if _ : id ∈ sweep.seen then
      arena.collectFrom rest ⟨found.values, false⟩ sweep
    else
      have hmeet : ∀ other ∈ sweep.seen, other ∈ (sweep.meet id).seen :=
        fun _ h => List.mem_cons_of_mem _ h
      match _ : arena.node id with
      | .query _ values below _ =>
        match sweep.fresh? id with
        | some known =>
          let result := arena.collectFrom rest ⟨found.values ∪ known, found.isFresh⟩
            (sweep.meet id)
          ⟨result.1, fun other h => result.2 other (hmeet other h)⟩
        | none =>
          let inner := arena.collectFrom below.toList ⟨values, true⟩ (sweep.meet id)
          let result := arena.collectFrom rest
            ⟨found.values ∪ inner.1.cache.values, found.isFresh && inner.1.cache.isFresh⟩
            (inner.1.sweep.store id inner.1.cache)
          ⟨result.1, fun other h => result.2 other (inner.2 other (hmeet other h))⟩
      | .leaf _ values _ =>
        let result := arena.collectFrom rest ⟨found.values ∪ values, found.isFresh⟩
          (sweep.meet id)
        ⟨result.1, fun other h => result.2 other (hmeet other h)⟩
      | .sink =>
        let result := arena.collectFrom rest found (sweep.meet id)
        ⟨result.1, fun other h => result.2 other (hmeet other h)⟩
termination_by (remaining arena.ids sweep.seen, ids.length)
decreasing_by
  · exact .right _ (Nat.lt_succ_self _)
  · exact lex_lt_of_le_of_lt (remaining_le _ hmeet) (Nat.lt_succ_self _)
  · exact .left _ _
      (remaining_lt (mem_ids_of_node_eq_query ‹arena.node id = _›) ‹id ∉ sweep.seen›
        List.mem_cons_self hmeet)
  · exact lex_lt_of_le_of_lt (remaining_le _ fun other h => inner.2 other (hmeet other h))
      (Nat.lt_succ_self _)
  · exact lex_lt_of_le_of_lt (remaining_le _ hmeet) (Nat.lt_succ_self _)
  · exact lex_lt_of_le_of_lt (remaining_le _ hmeet) (Nat.lt_succ_self _)

def collect (arena : Arena K V) (ids : List NodeId) (found : Cache V) (sweep : Sweep V) :
    Collected V :=
  (arena.collectFrom ids found sweep).1

@[simp] theorem collect_nil (arena : Arena K V) (found : Cache V) (sweep : Sweep V) :
    arena.collect [] found sweep = ⟨found, sweep⟩ := by
  rw [collect, collectFrom]

theorem collect_cons_of_mem {arena : Arena K V} {id : NodeId} {rest : List NodeId}
    {found : Cache V} {sweep : Sweep V} (hseen : id ∈ sweep.seen) :
    arena.collect (id :: rest) found sweep =
      arena.collect rest ⟨found.values, false⟩ sweep := by
  rw [collect, collectFrom, dif_pos hseen, collect]

theorem collect_cons_of_not_mem {arena : Arena K V} {id : NodeId} {rest : List NodeId}
    {found : Cache V} {sweep : Sweep V} (hseen : id ∉ sweep.seen) :
    arena.collect (id :: rest) found sweep =
      match arena.node id with
      | .query _ values below _ =>
        match sweep.fresh? id with
        | some known =>
          arena.collect rest ⟨found.values ∪ known, found.isFresh⟩ (sweep.meet id)
        | none =>
          let inner := arena.collect below.toList ⟨values, true⟩ (sweep.meet id)
          arena.collect rest
            ⟨found.values ∪ inner.cache.values, found.isFresh && inner.cache.isFresh⟩
            (inner.sweep.store id inner.cache)
      | .leaf _ values _ =>
        arena.collect rest ⟨found.values ∪ values, found.isFresh⟩ (sweep.meet id)
      | .sink => arena.collect rest found (sweep.meet id) := by
  rw [collect, collectFrom, dif_neg hseen]
  split
  · rename_i h
    simp only [h]
    split <;> rfl
  · rename_i h
    simp only [h]
    rfl
  · rename_i h
    simp only [h]
    rfl

/-- Sweeps below one query node and stores the combined value there, unless it is known. -/
def aggregate (arena : Arena K V) (id : NodeId) (sweep : Sweep V) : Sweep V :=
  match arena.node id, sweep.fresh? id with
  | .query _ values below _, none =>
    let inner := arena.collect below.toList ⟨values, true⟩ sweep
    inner.sweep.store id inner.cache
  | _, _ => sweep

end Arena

end Downset
