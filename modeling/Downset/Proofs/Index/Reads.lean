import Downset.Index.Diagram
import Downset.Proofs.Arena.Total
import Downset.Proofs.Index.Faithful

/-!
# Reading leaves no trace

What `get` answers for a key with a query node is the total of that node, whatever earlier gets
have stored, and all that it changes are caches at query nodes at or below that node. So two
histories that differ in their gets alone lead to indexes that no reader can tell apart.
-/

namespace Downset

section Alike

variable {K V : Type}

def Operation.isGet : Operation K V → Bool
  | .get _ => true
  | _ => false

/-- The operations of a history that are not gets. -/
def Operation.withoutGets (operations : List (Operation K V)) : List (Operation K V) :=
  operations.filter fun operation => !operation.isGet

/-- The indexes differ in what is stored of combined values, if at all. -/
def Index.Alike (index other : Index K V) : Prop := other = { index with caches := other.caches }

namespace Index.Alike

variable {index other third : Index K V}

theorem refl (index : Index K V) : index.Alike index := rfl

theorem of_caches (caches : Table NodeId (Cache V)) :
    index.Alike { index with caches := caches } := rfl

theorem symm (h : index.Alike other) : other.Alike index := by
  unfold Alike at h ⊢
  rw [h]

theorem trans (h : index.Alike other) (h' : other.Alike third) : index.Alike third := by
  unfold Alike at h h' ⊢
  rw [h', h]

theorem arena_eq (h : index.Alike other) : other.arena = index.arena := by rw [h]

theorem phase_eq (h : index.Alike other) : other.phase = index.phase := by rw [h]

theorem toDot_eq (h : index.Alike other) : other.toDot = index.toDot := by
  rw [h]
  rfl

end Index.Alike

end Alike

variable {K V : Type} [DecidableEq K] [DecidableEq V] {order : KeyOrder K} {filter : KeyFilter K}
  {index other : Index K V} {key : K}

/-- No request tells the indexes apart. -/
structure Index.SeenAlike (index other : Index K V) : Prop where
  get_eq : ∀ key, (other.get key).1 = (index.get key).1
  put_eq : ∀ key value, (other.put key value).1 = (index.put key value).1
  kindOf?_eq : ∀ key, other.kindOf? key = index.kindOf? key
  queryCount_eq : other.queryCount = index.queryCount
  linkCount_eq : other.linkCount = index.linkCount
  toDot_eq : other.toDot = index.toDot
  phase_eq : other.phase = index.phase

theorem Index.caches_put {value : V} : (index.put key value).2.caches = index.caches := by
  unfold put locate
  split
  · rfl
  · rcases (Build.locate index.order index.filter key).run index.arena with ⟨_ | _, after⟩ <;> rfl

def Index.totalOf (index : Index K V) (key : K) : OrderedSet V :=
  match index.arena.slots.find? key with
  | none => ∅
  | some n => if (index.arena.node n).kind = .query then index.arena.total n else ∅

theorem Index.Alike.totalOf_eq (h : index.Alike other) : other.totalOf key = index.totalOf key := by
  unfold Index.totalOf
  rw [h.arena_eq]

/-- In the readable phase the answer is the total of the query node of the key, if there is one,
and nothing changes but caches at query nodes at or below that node. -/
theorem Index.get_total (hphase : index.phase = .readable) (h : index.arena.WellFormed filter)
    (hacyclic : ∀ n, ¬ OnCycle index.arena.uppers n)
    (hcaches : index.arena.TotalCaches index.caches) (key : K) :
    ∃ caches, index.get key = (.ok (index.totalOf key), { index with caches := caches }) ∧
      index.arena.TotalCaches caches ∧
      ∀ n, caches.find? n = index.caches.find? n ∨ (index.arena.node n).kind = .query ∧
        ∃ top, index.arena.slots.find? key = some top ∧ Reaches index.arena.uppers n top := by
  unfold get totalOf Phase.require
  rw [if_pos hphase]
  cases hslot : index.arena.slots.find? key with
  | none => exact ⟨index.caches, rfl, hcaches, fun n => .inl rfl⟩
  | some top =>
    by_cases hkind : (index.arena.node top).kind = .query
    · obtain ⟨hafter, cache, hcache, hvalues⟩ :=
        Arena.aggregate_total h.mirror hacyclic hcaches hkind
      refine ⟨_, ?_, hafter, ?_⟩
      · simp only [hkind, hcache, hvalues, if_true, Option.map_some, Option.getD_some]
      · intro n
        refine (Arena.touches_aggregate h.mirror top (.start index.caches) n).imp_right ?_
        rintro ⟨hquery, first, hfirst, hflow⟩
        rw [List.mem_singleton.1 hfirst] at hflow
        exact ⟨hquery, top, rfl, hflow⟩
    · refine ⟨index.caches, ?_, hcaches, fun n => .inl rfl⟩
      simp only [hkind, if_false]

namespace Session

/-- Whatever is stored with a node and may be used again is the total of the node. -/
structure Settled (order : KeyOrder K) (filter : KeyFilter K) (s : Session K V) : Prop
    extends s.Faithful order filter where
  totals : s.index.arena.TotalCaches s.index.caches

variable {s t : Session K V} {value : V}

namespace Settled

theorem of_uncached (h : s.Faithful order filter) (huncached : s.index.caches = ∅) :
    s.Settled order filter :=
  ⟨h, huncached ▸ Arena.totalCaches_empty _⟩

theorem get_total (h : s.Settled order filter) (hphase : s.index.phase = .readable) (key : K) :
    ∃ caches, s.index.get key = (.ok (s.index.totalOf key), { s.index with caches := caches }) ∧
      s.index.arena.TotalCaches caches ∧
      ∀ n, caches.find? n = s.index.caches.find? n ∨ (s.index.arena.node n).kind = .query ∧
        ∃ top, s.index.arena.slots.find? key = some top ∧ Reaches s.index.arena.uppers n top :=
  Index.get_total hphase h.consistent.toWellFormed (fun _ => h.consistent.not_onCycle) h.totals key

theorem put (h : s.Settled order filter) (key : K) (value : V) :
    (s.step (.put key value)).Settled order filter := by
  have hafter := h.toFaithful.step (.put key value)
  by_cases hphase : s.index.phase = .writable
  · apply of_uncached hafter
    rw [index_step_put, Index.caches_put, h.uncached hphase]
  · rw [step_put_error (Index.put_of_ne_writable hphase)] at hafter ⊢
    exact ⟨hafter, h.totals⟩

theorem get (h : s.Settled order filter) (key : K) :
    (s.step (.get key)).Settled order filter := by
  have hafter := h.toFaithful.step (.get key)
  by_cases hphase : s.index.phase = .readable
  · obtain ⟨caches, hget, hcaches, _⟩ := h.get_total hphase key
    rw [step_get_ok hget] at hafter ⊢
    exact ⟨hafter, hcaches⟩
  · rw [step_get_error (Index.get_of_ne_readable hphase)] at hafter ⊢
    exact ⟨hafter, h.totals⟩

theorem step (h : s.Settled order filter) (operation : Operation K V) :
    (s.step operation).Settled order filter := by
  cases operation with
  | put key value => exact h.put key value
  | get key => exact h.get key
  | makeReadable => exact ⟨h.toFaithful.step .makeReadable, h.totals⟩
  | makeWritable => exact of_uncached (h.toFaithful.step .makeWritable) rfl
  | makeWritableAndClear => exact of_uncached (h.toFaithful.step .makeWritableAndClear) rfl

theorem run (h : s.Settled order filter) (operations : List (Operation K V)) :
    (s.run operations).Settled order filter := by
  induction operations generalizing s with
  | nil => exact h
  | cons operation rest ih => exact ih (h.step operation)

theorem alike_get (h : s.Settled order filter) (key : K) :
    s.index.Alike (s.step (.get key)).index := by
  rw [index_step_get]
  by_cases hphase : s.index.phase = .readable
  · obtain ⟨caches, hget, _⟩ := h.get_total hphase key
    rw [hget]
    exact .of_caches caches
  · rw [Index.get_of_ne_readable hphase]
    exact .refl _

/-- In the writable phase nothing is stored, so that nothing is left in which indexes may differ. -/
theorem eq_of_writable (h : s.Settled order filter) (h' : t.Settled order filter)
    (halike : s.index.Alike t.index) (hphase : s.index.phase = .writable) : t.index = s.index := by
  have hcaches := h'.uncached (halike.phase_eq.trans hphase)
  unfold Index.Alike at halike
  rw [halike, hcaches, ← h.uncached hphase]

theorem alike_step (h : s.Settled order filter) (h' : t.Settled order filter)
    (halike : s.index.Alike t.index) (operation : Operation K V) :
    (s.step operation).index.Alike (t.step operation).index := by
  cases operation with
  | put key value =>
    rw [index_step_put, index_step_put]
    by_cases hphase : s.index.phase = .writable
    · rw [h.eq_of_writable h' halike hphase]
      exact .refl _
    · rw [Index.put_of_ne_writable hphase, Index.put_of_ne_writable (halike.phase_eq ▸ hphase)]
      exact halike
  | get key => exact ((h.alike_get key).symm.trans halike).trans (h'.alike_get key)
  | makeReadable =>
    unfold Index.Alike at halike ⊢
    exact congrArg Index.makeReadable halike
  | makeWritable =>
    have heq := congrArg Index.makeWritable halike
    exact heq
  | makeWritableAndClear =>
    have heq := congrArg Index.makeWritableAndClear halike
    exact heq

theorem alike_withoutGets (h : s.Settled order filter) (h' : t.Settled order filter)
    (halike : s.index.Alike t.index) (operations : List (Operation K V)) :
    (s.run operations).index.Alike (t.run (Operation.withoutGets operations)).index := by
  induction operations generalizing s t with
  | nil => exact halike
  | cons operation rest ih =>
    cases hget : operation.isGet with
    | true =>
      cases operation with
      | get key =>
        have hskip : Operation.withoutGets (.get key :: rest) = Operation.withoutGets rest := rfl
        rw [hskip]
        exact ih (h.get key) h' ((h.alike_get key).symm.trans halike)
      | _ => cases hget
    | false =>
      have hkeep : Operation.withoutGets (operation :: rest) =
          operation :: Operation.withoutGets rest := by
        simp [Operation.withoutGets, hget]
      rw [hkeep]
      exact ih (h.step operation) (h'.step operation) (h.alike_step h' halike operation)

/-- What is stored makes no difference to any answer. -/
theorem seenAlike (h : s.Settled order filter) (h' : t.Settled order filter)
    (halike : s.index.Alike t.index) : s.index.SeenAlike t.index where
  get_eq key := by
    by_cases hphase : s.index.phase = .readable
    · obtain ⟨_, hget, _⟩ := h.get_total hphase key
      obtain ⟨_, hget', _⟩ := h'.get_total (halike.phase_eq.trans hphase) key
      rw [hget, hget', halike.totalOf_eq]
    · rw [Index.get_of_ne_readable hphase, Index.get_of_ne_readable (halike.phase_eq ▸ hphase),
        halike.phase_eq]
  put_eq key value := by
    by_cases hphase : s.index.phase = .writable
    · rw [h.eq_of_writable h' halike hphase]
    · rw [Index.put_of_ne_writable hphase, Index.put_of_ne_writable (halike.phase_eq ▸ hphase),
        halike.phase_eq]
  kindOf?_eq key := congrArg (·.kindOf? key) halike.arena_eq
  queryCount_eq := congrArg Arena.queryCount halike.arena_eq
  linkCount_eq := congrArg Arena.linkCount halike.arena_eq
  toDot_eq := halike.toDot_eq
  phase_eq := halike.phase_eq

end Settled

variable [Quotable K]

theorem settled_start (h : index.Initial order) : (start index).Settled order index.filter :=
  .of_uncached (faithful_start h) ((faithful_start h).uncached h.phase_eq)

/-- The total of a query node lists its own values and the totals below it, each value at its
first place. At any time, also after puts that failed, a get in the readable phase answers with
the total of the node of its key, and changes nothing but caches at query nodes at or below that
node. Histories that differ in their gets alone lead to indexes that cannot be told apart. -/
theorem reads_leave_no_trace (hindex : index.Initial order) (operations : List (Operation K V)) :
    let s := (start index).run operations
    let arena := s.index.arena
    (∀ n, arena.total n =
      match (arena.node n).kind with
      | .query => .ofList ((arena.node n).values.toList ++
          (arena.node n).below.toList.flatMap fun lower => (arena.total lower).toList)
      | .leaf => (arena.node n).values
      | .sink => ∅) ∧
    (s.index.phase = .readable → ∀ key n, arena.slots.find? key = some n →
      (arena.node n).kind = .query → (s.index.get key).1 = .ok (arena.total n)) ∧
    (s.index.phase = .readable → ∀ key, ∃ caches,
      (s.index.get key).2 = { s.index with caches := caches } ∧
        ∀ n, caches.find? n = s.index.caches.find? n ∨ (arena.node n).kind = .query ∧
          ∃ top, arena.slots.find? key = some top ∧ Reaches arena.uppers n top) ∧
    ∀ operations', Operation.withoutGets operations' = Operation.withoutGets operations →
      s.index.SeenAlike ((start index).run operations').index := by
  intro s arena
  have hstart : (start index).Settled order index.filter := settled_start hindex
  have hs : s.Settled order index.filter := hstart.run operations
  refine ⟨?total, ?get, ?frame, ?alike⟩
  case total =>
    intro n
    cases hkind : (arena.node n).kind with
    | query =>
      exact Arena.total_of_query hs.consistent.mirror (fun _ => hs.consistent.not_onCycle) hkind
    | leaf =>
      apply Arena.total_of_ne_query
      simp [hkind]
    | sink =>
      rw [Arena.total_of_ne_query (by simp [hkind]), Node.values_eq_empty _ hkind]
  case get =>
    intro hphase key n hslot hkind
    obtain ⟨_, hget, _⟩ := hs.get_total hphase key
    rw [hget, Index.totalOf, hslot]
    exact congrArg Except.ok (if_pos hkind)
  case frame =>
    intro hphase key
    obtain ⟨caches, hget, _, hframe⟩ := hs.get_total hphase key
    exact ⟨caches, congrArg Prod.snd hget, hframe⟩
  case alike =>
    intro operations' hsame
    have hleft := hstart.alike_withoutGets hstart (.refl index) operations
    have hright := hstart.alike_withoutGets hstart (.refl index) operations'
    rw [hsame] at hright
    exact hs.seenAlike (hstart.run operations') (hleft.trans hright.symm)

theorem reads_leave_no_trace_diamond :
    let index : Index Int Nat := .ofPredicate KeyOrder.diamond fun _ => true
    let puts := Operation.puts [(1, 10), (3, 30)] ++ [.makeReadable]
    let s := (start index).run puts
    let t := (start index).run (puts ++ [.get 2, .get 4, .get 3])
    (t.index.get 4).1 = (s.index.get 4).1 ∧ ∃ n, s.index.arena.slots.find? 4 = some n ∧
      (s.index.get 4).1 = .ok (s.index.arena.total n) := by
  intro index puts s t
  have hindex : index.Initial KeyOrder.diamond := .ofPredicate fun _ => true
  have hs : s.Faithful KeyOrder.diamond index.filter := (faithful_start hindex).run puts
  obtain ⟨hheld, _, hphase⟩ := (faithful_start hindex).run_batch (fun _ _ => List.not_mem_nil)
    hindex.phase_eq [(1, 10), (3, 30)] fun entry _ => KeyOrder.safe_diamond entry.1
  have hmem : (3, 30) ∈ s.held := by
    change _ ∈ ((start index).run _).held
    rw [hheld]
    exact List.mem_cons_self
  have hkind : s.index.arena.kindOf? 4 = some .query :=
    hs.kindOf?_eq_query hmem (KeyOrder.safe_diamond 3) (.single (by decide)) rfl
  obtain ⟨n, hn, hquery⟩ := Option.map_eq_some_iff.1 hkind
  obtain ⟨_, hget, _, halike⟩ := reads_leave_no_trace hindex puts
  have hsame : Operation.withoutGets (puts ++ [.get 2, .get 4, .get 3]) = Operation.withoutGets puts :=
    rfl
  have hseen := (halike _ hsame).get_eq 4
  have htotal := hget hphase 4 n hn hquery
  exact ⟨hseen, n, hn, htotal⟩

end Session

end Downset
