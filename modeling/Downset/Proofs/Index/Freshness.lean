import Downset.Proofs.Arena.Freshness
import Downset.Proofs.Build.Stack
import Downset.Proofs.Index.Caching
import Downset.Proofs.Index.Lasting
import Downset.Proofs.Index.Reads
import Mathlib.Data.List.Permutation

/-!
# Caches that may be used again

Nothing is stored while an index is written. While it is read, a fresh node stores its total, the
query nodes below it are fresh too, and it stays as it is until the index is written again. What is
stored with other nodes may be a part of their totals only, but nobody gets to see it: a read of
such a node computes it anew, and no read depends on it in any other way.
-/

namespace Downset

variable {K V : Type}

def Operation.beginsWriting : Operation K V → Bool
  | .makeWritable | .makeWritableAndClear => true
  | _ => false

/-- What is stored with a node, if it may be used again. -/
def Index.fresh? (index : Index K V) (n : NodeId) : Option (OrderedSet V) :=
  (Sweep.start index.caches).fresh? n

theorem Sweep.map_values_of_fresh? {sweep : Sweep V} {n : NodeId} {values : OrderedSet V}
    (h : sweep.fresh? n = some values) : (sweep.caches.find? n).map Cache.values = some values := by
  unfold fresh? at h
  split at h
  · next cache hcache =>
    split at h
    · rw [hcache, Option.map_some, h]
    · cases h
  · cases h

variable [DecidableEq K] [DecidableEq V] {order : KeyOrder K} {filter : KeyFilter K}
  {index : Index K V} {key : K} {n : NodeId} {values : OrderedSet V}

namespace Index

theorem caches_get_cases (index : Index K V) (key : K) :
    (index.get key).2.caches = index.caches ∨
      ∃ n, (index.get key).2.caches = (index.arena.aggregate n (.start index.caches)).caches := by
  unfold get
  split
  · exact .inl rfl
  · split
    · exact .inl rfl
    · next n hslot =>
      split
      · exact .inr ⟨n, rfl⟩
      · exact .inl rfl

/-- What is stored with nodes that are not fresh makes no difference to a get, neither to what it
answers nor to what is fresh afterwards. -/
theorem get_of_fresh?_eq {caches : Table NodeId (Cache V)}
    (h : ∀ n, { index with caches := caches }.fresh? n = index.fresh? n) (key : K) :
    ({ index with caches := caches }.get key).1 = (index.get key).1 ∧
      ∀ n, ({ index with caches := caches }.get key).2.fresh? n = (index.get key).2.fresh? n := by
  unfold get
  cases index.phase.require .readable with
  | error fault => exact ⟨rfl, h⟩
  | ok =>
    cases index.arena.slots.find? key with
    | none => exact ⟨rfl, h⟩
    | some top =>
      by_cases hkind : (index.arena.node top).kind = .query
      · simp only [hkind, if_true]
        have hstart : (Sweep.start index.caches).Alike (.start caches) :=
          ⟨rfl, rfl, h, fun n hn => absurd hn List.not_mem_nil⟩
        have hafter := index.arena.alike_aggregate top hstart
        refine ⟨?_, hafter.fresh?⟩
        rcases index.arena.mem_stored_aggregate hkind (.start index.caches) with
          ⟨values, hfresh⟩ | hstored
        · have hfresh' : (Sweep.start caches).fresh? top = some values := (h top).trans hfresh
          rw [Arena.aggregate_of_fresh hfresh, Arena.aggregate_of_fresh hfresh',
            Sweep.map_values_of_fresh? hfresh, Sweep.map_values_of_fresh? hfresh']
        · rw [hafter.find? top hstored]
      · simp only [hkind, if_false, true_and]
        exact h

end Index

/-- The query nodes of the diamond, in the order in which a walk from its lowest key makes them. -/
def Arena.diamond : Arena Int Nat where
  nodes := #[.sink, .query 1 ∅ ∅ (.ofList [⟨2⟩, ⟨4⟩]), .query 2 ∅ (.ofList [⟨1⟩]) (.ofList [⟨3⟩]),
    .query 4 ∅ (.ofList [⟨2⟩, ⟨4⟩]) ∅, .query 3 ∅ (.ofList [⟨1⟩]) (.ofList [⟨3⟩])]
  slots := (((Table.empty.insert 1 ⟨1⟩).insert 2 ⟨2⟩).insert 4 ⟨3⟩).insert 3 ⟨4⟩
  skipped := ∅

theorem walks_diamond : ∃ found state,
    Build.Walks KeyOrder.diamond (.predicate fun _ => true) 1 ⟨[], (∅ : Arena Int Nat)⟩ found state ∧
      state = ⟨[], Arena.diamond⟩ := by
  refine ⟨_, _, .query (by decide) rfl rfl (.link (.query (by decide) rfl rfl
    (.link (.query (by decide) rfl rfl .done) .done)) (.link (.query (by decide) rfl rfl
      (.link (.known (by decide) rfl) .done)) .done)), ?_⟩
  rfl

theorem put_diamond (value : Nat) :
    (Index.ofPredicate .diamond fun _ => true : Index Int Nat).put 1 value =
      (.ok (), { (Index.ofPredicate .diamond fun _ => true : Index Int Nat) with
        arena := Arena.diamond.modify ⟨1⟩ (·.accept value) }) := by
  obtain ⟨found, _, hwalks, rfl⟩ := walks_diamond
  have hrun := Build.run_locate_of_walks rfl rfl hwalks
  refine Index.put_of_located rfl ?_
  simp only [Index.locate, Index.ofPredicate, Index.empty]
  rw [hrun]
  rfl

namespace Session

/-- Whatever is fresh is a total, and all below it is fresh. -/
structure Refreshed (order : KeyOrder K) (filter : KeyFilter K) (s : Session K V) : Prop
    extends s.Settled order filter where
  below : s.index.arena.FreshBelow (.start s.index.caches)

variable {s : Session K V} {operation : Operation K V}

namespace Refreshed

theorem of_uncached (h : s.Settled order filter) (huncached : s.index.caches = ∅) :
    s.Refreshed order filter :=
  ⟨h, huncached ▸ Arena.freshBelow_empty _⟩

theorem get (h : s.Refreshed order filter) (key : K) :
    s.index.arena.FreshBelow (.start (s.index.get key).2.caches) ∧
      ∀ n values, s.index.fresh? n = some values →
        (s.index.get key).2.fresh? n = some values := by
  unfold Index.fresh?
  rcases s.index.caches_get_cases key with hcaches | ⟨top, hcaches⟩
  · rw [hcaches]
    exact ⟨h.below, fun _ _ hfresh => hfresh⟩
  · rw [hcaches]
    exact Arena.aggregate_freshens h.consistent.mirror (fun _ => h.consistent.not_onCycle)
      h.below top

theorem step (h : s.Refreshed order filter) (operation : Operation K V) :
    (s.step operation).Refreshed order filter := by
  have hafter := h.toSettled.step operation
  cases operation with
  | put key value =>
    by_cases hphase : s.index.phase = .writable
    · apply of_uncached hafter
      rw [index_step_put, Index.caches_put, h.uncached hphase]
    · rw [step_put_error (Index.put_of_ne_writable hphase)] at hafter ⊢
      exact ⟨hafter, h.below⟩
  | get key =>
    refine ⟨hafter, ?_⟩
    rw [index_step_get, Index.arena_get]
    exact (h.get key).1
  | makeReadable => exact ⟨hafter, h.below⟩
  | makeWritable => exact of_uncached hafter rfl
  | makeWritableAndClear => exact of_uncached hafter rfl

theorem run (h : s.Refreshed order filter) (operations : List (Operation K V)) :
    (s.run operations).Refreshed order filter := by
  induction operations generalizing s with
  | nil => exact h
  | cons operation rest ih => exact ih (h.step operation)

/-- A fresh node is left as it is by all that does not begin a new turn of writing. -/
theorem fresh?_step (h : s.Refreshed order filter) (hread : operation.beginsWriting = false)
    (hfresh : s.index.fresh? n = some values) :
    (s.step operation).index.fresh? n = some values := by
  cases operation with
  | put key value =>
    unfold Index.fresh? at hfresh ⊢
    rwa [index_step_put, Index.caches_put]
  | get key =>
    rw [index_step_get]
    exact (h.get key).2 n values hfresh
  | makeReadable => exact hfresh
  | makeWritable => cases hread
  | makeWritableAndClear => cases hread

theorem fresh?_run (h : s.Refreshed order filter) (operations : List (Operation K V))
    (hread : ∀ operation ∈ operations, operation.beginsWriting = false)
    (hfresh : s.index.fresh? n = some values) :
    (s.run operations).index.fresh? n = some values := by
  induction operations generalizing s with
  | nil => exact hfresh
  | cons operation rest ih =>
    obtain ⟨hfirst, hrest⟩ := List.forall_mem_cons.1 hread
    exact ih (h.step operation) hrest (h.fresh?_step hfirst hfresh)

end Refreshed

variable [Quotable K]

theorem refreshed_start (h : index.Initial order) : (start index).Refreshed order index.filter :=
  .of_uncached (settled_start h) ((faithful_start h).uncached h.phase_eq)

/-- The total of a query node lists its own values and the totals below it, each value at its
first place. At any time nothing is stored in the writable phase, a fresh node stores its total,
and the query nodes below it are fresh. A fresh node stays as it is until the index is made
writable. A read of a query node answers the total, and every query node that enters into it, the
node itself included, was fresh before or is stored anew. What is stored with nodes that are not
fresh makes no difference to any read. -/
theorem caches_sound (hindex : index.Initial order) (operations : List (Operation K V)) :
    let s := (start index).run operations
    let arena := s.index.arena
    (∀ n, arena.total n =
      match (arena.node n).kind with
      | .query => .ofList ((arena.node n).values.toList ++
          (arena.node n).below.toList.flatMap fun lower => (arena.total lower).toList)
      | .leaf => (arena.node n).values
      | .sink => ∅) ∧
    (s.index.phase = .writable → ∀ n, s.index.caches.find? n = none) ∧
    (∀ n values, s.index.fresh? n = some values → values = arena.total n ∧
      (∀ lower ∈ (arena.node n).below, (arena.node lower).kind = .query →
        ∃ values, s.index.fresh? lower = some values) ∧
      ∀ later : List (Operation K V),
        (∀ operation ∈ later, operation.beginsWriting = false) →
          (s.run later).index.fresh? n = some values) ∧
    (s.index.phase = .readable → ∀ key n, arena.slots.find? key = some n →
      (arena.node n).kind = .query →
        let sweep := arena.aggregate n (.start s.index.caches)
        s.index.get key = (.ok (arena.total n), { s.index with caches := sweep.caches }) ∧
        (∀ m, m ∉ sweep.stored → sweep.caches.find? m = s.index.caches.find? m) ∧
        ∀ m ∈ n :: sweep.seen, (arena.node m).kind = .query →
          (∃ values, s.index.fresh? m = some values) ∨ m ∈ sweep.stored) ∧
    ∀ caches, (∀ n, { s.index with caches := caches }.fresh? n = s.index.fresh? n) → ∀ key,
      ({ s.index with caches := caches }.get key).1 = (s.index.get key).1 ∧
      ∀ n, ({ s.index with caches := caches }.get key).2.fresh? n =
        (s.index.get key).2.fresh? n := by
  intro s arena
  have hs : s.Refreshed order index.filter := (refreshed_start hindex).run operations
  refine ⟨?total, ?writable, ?fresh, ?read, fun caches h => Index.get_of_fresh?_eq h⟩
  case total => exact Arena.total_eq hs.consistent.mirror fun _ => hs.consistent.not_onCycle
  case writable =>
    intro hphase n
    rw [hs.uncached hphase]
    exact Table.find?_empty n
  case fresh =>
    intro n values hfresh
    refine ⟨?_, hs.below n values hfresh, fun later hread => hs.fresh?_run later hread hfresh⟩
    have htotals : arena.TotalCaches (Sweep.start s.index.caches).caches := hs.totals
    exact (htotals.fresh? hfresh).2
  case read =>
    intro hphase key n hslot hkind sweep
    have hrenews := arena.renews_aggregate n (.start s.index.caches)
    refine ⟨?_, hrenews.kept, fun m hm hquery => ?_⟩
    · obtain ⟨caches, hget, _⟩ := hs.get_total hphase key
      have hcaches : caches = sweep.caches := by
        rw [← Index.caches_get hphase hslot hkind, hget]
      rw [hget, hcaches, Index.totalOf, hslot]
      exact congrArg (Except.ok · , _) (if_pos hkind)
    · rcases List.mem_cons.1 hm with rfl | hm
      · exact arena.mem_stored_aggregate hquery (.start s.index.caches)
      · exact (hrenews.met m hm hquery).resolve_left List.not_mem_nil

/-- Two ways lead down from the highest key of the diamond, so a read there leaves a part of the
total, here nothing, with the key of the diamond that is met last. The other key in the middle is
fresh and stays so. -/
theorem caches_sound_diamond :
    let index : Index Int Nat := .ofPredicate KeyOrder.diamond fun _ => true
    let s := (start index).run [.put 1 10, .makeReadable, .get 4]
    let arena := s.index.arena
    index.Initial KeyOrder.diamond ∧
    (arena.slots.find? 2 = some ⟨2⟩ ∧ s.index.fresh? ⟨2⟩ = some (arena.total ⟨2⟩) ∧
      (s.run [.makeReadable, .get 3]).index.fresh? ⟨2⟩ = some (arena.total ⟨2⟩)) ∧
    arena.slots.find? 3 = some ⟨4⟩ ∧ s.index.caches.find? ⟨4⟩ = some ⟨∅, false⟩ ∧
      arena.total ⟨4⟩ ≠ ∅ ∧ (s.index.get 3).1 = .ok (arena.total ⟨4⟩) := by
  intro index s arena
  have hindex : index.Initial KeyOrder.diamond := .ofPredicate fun _ => true
  have hs : s = run ⟨_, [(1, 10)], []⟩ [.makeReadable, .get 4] :=
    congrArg (run · [.makeReadable, .get 4]) (step_put_ok (put_diamond 10))
  have hkept : s.index.fresh? ⟨2⟩ = some (.ofList [10]) := by rw [hs]; cbv
  have hphase : s.index.phase = .readable := by rw [hs]; cbv
  have hslot : s.index.arena.slots.find? 3 = some ⟨4⟩ := by rw [hs]; cbv
  have hkind : (s.index.arena.node ⟨4⟩).kind = .query := by rw [hs]; cbv
  have hanswer : (s.index.get 3).1 = .ok (.ofList [10]) := by rw [hs]; cbv
  obtain ⟨_, _, hfresh, hread, _⟩ := caches_sound hindex [.put 1 10, .makeReadable, .get 4]
  obtain ⟨htotal, _, hlasting⟩ := hfresh ⟨2⟩ _ hkept
  have hget := congrArg Prod.fst (hread hphase 3 ⟨4⟩ hslot hkind).1
  have hten := Except.ok.inj (hget.symm.trans hanswer)
  refine ⟨hindex, ⟨?_, ?_, ?_⟩, hslot, ?_, ?_, hget⟩
  · change s.index.arena.slots.find? 2 = some ⟨2⟩
    rw [hs]
    cbv
  · exact htotal ▸ hkept
  · exact htotal ▸ hlasting [.makeReadable, .get 3] (by decide)
  · rw [hs]
    cbv
  · exact fun hempty => absurd (hten.symm.trans hempty) (by decide)

end Session

end Downset
