import Downset.Proofs.Arena.Shape
import Downset.Proofs.Index.Faithful

/-!
# The shape of an index

Which keys have nodes, of what kind these are and how they are linked follows from the order, the
filter and the set of keys put so far, as long as no put has run into a cycle. The order of the
puts does not matter, nor their values, nor what else was asked between them. Forgetting all
values does not change the shape.
-/

namespace Downset

variable {K V : Type} [DecidableEq K] {order : KeyOrder K} {filter : KeyFilter K}
  {keys keys' : List K} {index other : Index K V}

/-- What an index over an order looks like once the keys of a list were put. -/
structure Index.ShapedBy (order : KeyOrder K) (filter : KeyFilter K) (keys : List K)
    (index : Index K V) : Prop where
  query_iff : ∀ key, index.kindOf? key = some .query ↔
    filter.accepts key = true ∧ order.Upward keys key
  leaf_iff : ∀ key, index.kindOf? key = some .leaf ↔
    filter.accepts key = false ∧ key ∈ keys ∧ ∃ other, order.Nearest filter key other
  sink_iff : ∀ key, index.kindOf? key = some .sink ↔
    filter.accepts key = false ∧ order.Upward keys key ∧ ¬ ∃ other, order.Nearest filter key other
  none_iff : ∀ key, index.kindOf? key = none ↔ ¬ order.Upward keys key ∨
    filter.accepts key = false ∧ key ∉ keys ∧ ∃ other, order.Nearest filter key other
  /-- Every nearest key of a key with a node has a node, and the links lead to just these. -/
  above_iff : ∀ n key, (index.arena.node n).key? = some key →
    (∀ other, order.Nearest filter key other → ∃ m, index.arena.slots.find? other = some m) ∧
    ∀ m, m ∈ (index.arena.node n).above ↔
      ∃ other, order.Nearest filter key other ∧ index.arena.slots.find? other = some m
  queryCount_eq : index.queryCount =
    Set.ncard {key | filter.accepts key = true ∧ order.Upward keys key}
  linkCount_eq : index.linkCount = Set.ncard {pair : K × K |
    (pair.1 ∈ keys ∨ filter.accepts pair.1 = true ∧ order.Upward keys pair.1) ∧
      order.Nearest filter pair.1 pair.2}

namespace Index

theorem shapedBy_of_built (h : index.arena.Built order filter keys) :
    index.ShapedBy order filter keys where
  query_iff _ := h.kindOf?_eq_query_iff
  leaf_iff _ := h.kindOf?_eq_leaf_iff
  sink_iff _ := h.kindOf?_eq_sink_iff
  none_iff _ := h.kindOf?_eq_none_iff
  above_iff n key hkey := by
    have hslot := h.slot_of_key hkey
    constructor
    · intro other hnearest
      have hsafe := h.safe_of_met (Arena.met_of_slot hslot)
      obtain ⟨m, hm, _⟩ := h.linked hsafe List.not_mem_nil hslot hnearest
      exact ⟨m, hm⟩
    · intro m
      exact h.mem_above_iff hslot (h.ne_sink (Arena.kind_ne_sink hkey))
  queryCount_eq := h.queryCount_eq
  linkCount_eq := h.linkCount_eq

/-- Two indexes of one shape answer alike about kinds and numbers. -/
theorem ShapedBy.agree (h : index.ShapedBy order filter keys)
    (h' : other.ShapedBy order filter keys) :
    (∀ key, other.kindOf? key = index.kindOf? key) ∧ other.queryCount = index.queryCount ∧
      other.linkCount = index.linkCount := by
  refine ⟨?_, h'.queryCount_eq.trans h.queryCount_eq.symm,
    h'.linkCount_eq.trans h.linkCount_eq.symm⟩
  intro key
  cases hkind : index.kindOf? key with
  | none => exact (h'.none_iff key).2 ((h.none_iff key).1 hkind)
  | some kind =>
    cases kind with
    | query => exact (h'.query_iff key).2 ((h.query_iff key).1 hkind)
    | leaf => exact (h'.leaf_iff key).2 ((h.leaf_iff key).1 hkind)
    | sink => exact (h'.sink_iff key).2 ((h.sink_iff key).1 hkind)

end Index

theorem Arena.built_empty (order : KeyOrder K) (filter : KeyFilter K) :
    (∅ : Arena K V).Built order filter [] := by
  have hslot : ∀ key, (∅ : Arena K V).slots.find? key = none := Table.find?_empty
  have hskipped : ∀ key, (∅ : Arena K V).skipped.find? key = none := Table.find?_empty
  refine ⟨consistent_empty order filter _, ⟨?_, ?_⟩, meetsSafe_empty order, ?_, ?_, ?_⟩
  · intro n hn
    rw [node_empty] at hn
    cases hn
  · intro key found hfound
    cases (hskipped key).symm.trans hfound
  · intro key
    refine iff_of_false (fun hmet => hmet rfl) ?_
    rintro ⟨lower, hlower, _⟩
    exact absurd hlower List.not_mem_nil
  · intro key hkey
    exact absurd hkey List.not_mem_nil
  · intro key n hn
    cases (hslot key).symm.trans hn

theorem Build.locate_built {arena : Arena K V} {key : K} (h : arena.Built order filter keys) :
    (locate order filter key).Ends arena (fun _ after => after.Built order filter (key :: keys))
      (fun _ _ => True) := by
  have hkept := Arena.Productive.keptByLocating (V := V) filter
  refine ((locate_spec h.toConsistent).and ((locate_discovers h.closed).and
    ((hkept.locate h.toProductive).and locate_leaf))).mono ?_ fun _ _ _ => trivial
  rintro id after ⟨hlocates, hdiscovers, hproductive, hleaf⟩
  exact h.locate hlocates hdiscovers hproductive hleaf

theorem Index.built_of_locate {key : K} {id : NodeId} {after : Arena K V}
    (h : index.arena.Built index.order index.filter keys)
    (hlocate : index.locate key = (.ok id, { index with arena := after })) :
    after.Built index.order index.filter (key :: keys) := by
  rcases index.locate_ends (Build.locate_built h) with
    ⟨id', after', hlocate', hafter⟩ | ⟨twice, after', hlocate', _⟩
  · rw [hlocate, Prod.mk.injEq] at hlocate'
    have heq : after = after' := congrArg Index.arena hlocate'.2
    exact heq ▸ hafter
  · rw [hlocate] at hlocate'
    cases (Prod.mk.inj hlocate').1

namespace Session

variable {s : Session K V}

/-- The index is over the order and has the shape that the keys of a list give it. -/
structure Shaped (order : KeyOrder K) (filter : KeyFilter K) (keys : List K) (s : Session K V) :
    Prop where
  order_eq : s.index.order = order
  filter_eq : s.index.filter = filter
  built : s.index.arena.Built order filter keys

namespace Shaped

theorem of_mem_iff (h : s.Shaped order filter keys) (hmem : ∀ key, key ∈ keys' ↔ key ∈ keys) :
    s.Shaped order filter keys' :=
  ⟨h.order_eq, h.filter_eq, h.built.of_mem_iff hmem⟩

theorem safe (h : s.Shaped order filter keys) {key : K} (hkey : key ∈ keys) :
    order.Safe key := by
  obtain ⟨n, hn⟩ := h.built.located key hkey
  exact h.built.safe_of_met (Arena.met_of_slot hn)

end Shaped

section New

variable [Quotable K] {holds : K → Bool} {render : K → String}

/-- A session over a new index that answers the keys of which a predicate holds. -/
def ofPredicate (order : KeyOrder K) (holds : K → Bool) (render : K → String) : Session K V :=
  start ((Index.ofPredicate order holds).withRender render)

theorem faithful_ofPredicate :
    (ofPredicate order holds render : Session K V).Faithful order (.predicate holds) :=
  faithful_start (.withRender (.ofPredicate holds) render)

theorem shaped_ofPredicate :
    (ofPredicate order holds render : Session K V).Shaped order (.predicate holds) [] :=
  ⟨rfl, rfl, Arena.built_empty order _⟩

end New

variable [DecidableEq V]

/-- The keys at which an operation puts something with success. -/
def placedBy (s : Session K V) : Operation K V → List K
  | .put key value =>
    match (s.index.put key value).1 with
    | .ok () => [key]
    | .error _ => []
  | _ => []

/-- The keys at which a run puts something with success, earliest first. Forgetting all values
takes none away. -/
def placed (s : Session K V) : List (Operation K V) → List K
  | [] => []
  | operation :: rest => s.placedBy operation ++ (s.step operation).placed rest

namespace Shaped

theorem put (h : s.Shaped order filter keys) (key : K) (value : V)
    (hsmooth : (s.step (.put key value)).Smooth) :
    (s.step (.put key value)).Shaped order filter (s.placedBy (.put key value) ++ keys) := by
  obtain ⟨rfl, rfl, hbuilt⟩ := h
  by_cases hphase : s.index.phase = .writable
  · rcases s.index.locate_cases key hbuilt.toConsistent with
      ⟨id, after, hlocate, _⟩ | ⟨twice, after, hlocate, _⟩
    · have hput : s.index.put key value = (.ok (), _) := Index.put_of_located hphase hlocate
      have hafter := Index.built_of_locate hbuilt hlocate
      rw [step_put_ok hput, placedBy, hput]
      exact ⟨rfl, rfl, hafter.of_sameShape (after.sameShape_accept id value)⟩
    · rw [step_put_error (Index.put_of_abandoned hphase hlocate)] at hsmooth
      exact absurd List.mem_cons_self (hsmooth _ _)
  · have hput : s.index.put key value = (.error _, s.index) := Index.put_of_ne_writable hphase
    rw [step_put_error hput, placedBy, hput]
    exact ⟨rfl, rfl, hbuilt⟩

theorem get (h : s.Shaped order filter keys) (hs : s.Faithful order filter) (key : K) :
    (s.step (.get key)).Shaped order filter keys := by
  by_cases hphase : s.index.phase = .readable
  · obtain ⟨found, caches, hget, _⟩ := hs.get_answer hphase key
    rw [step_get_ok hget]
    exact ⟨h.order_eq, h.filter_eq, h.built⟩
  · rw [step_get_error (Index.get_of_ne_readable hphase)]
    exact ⟨h.order_eq, h.filter_eq, h.built⟩

theorem step (h : s.Shaped order filter keys) (hs : s.Faithful order filter)
    (operation : Operation K V) (hsmooth : (s.step operation).Smooth) :
    (s.step operation).Shaped order filter (s.placedBy operation ++ keys) := by
  cases operation with
  | put key value => exact h.put key value hsmooth
  | get key => exact h.get hs key
  | makeReadable => exact ⟨h.order_eq, h.filter_eq, h.built⟩
  | makeWritable => exact ⟨h.order_eq, h.filter_eq, h.built⟩
  | makeWritableAndClear =>
    exact ⟨h.order_eq, h.filter_eq, h.built.of_sameShape (s.index.arena.sameShape_clear)⟩

theorem run (h : s.Shaped order filter keys) (hs : s.Faithful order filter)
    (operations : List (Operation K V)) (hsmooth : (s.run operations).Smooth) :
    (s.run operations).Shaped order filter (s.placed operations ++ keys) := by
  induction operations generalizing s keys with
  | nil => exact h
  | cons operation rest ih =>
    have hrest : ((s.step operation).run rest).Smooth := hsmooth
    have hstep := h.step hs operation hrest.of_run
    apply (ih hstep (hs.step operation) hrest).of_mem_iff
    intro key
    simp only [Session.placed, List.mem_append]
    tauto

end Shaped

theorem Faithful.smooth_of_safe (h : s.Faithful order filter) (hsmooth : s.Smooth)
    (operations : List (Operation K V))
    (hsafe : ∀ key value, Operation.put key value ∈ operations → order.Safe key) :
    (s.run operations).Smooth := by
  induction operations generalizing s with
  | nil => exact hsmooth
  | cons operation rest ih =>
    have hrest := fun key value hmem => hsafe key value (List.mem_cons_of_mem operation hmem)
    refine ih (h.step operation) ?_ hrest
    cases operation with
    | put key value =>
      by_cases hphase : s.index.phase = .writable
      · obtain ⟨after, hput⟩ := h.put_ok hphase (hsafe key value List.mem_cons_self)
        rw [step_put_ok hput]
        exact hsmooth
      · rw [step_put_error (Index.put_of_ne_writable hphase)]
        exact hsmooth.of_phaseViolation
    | get key =>
      by_cases hphase : s.index.phase = .readable
      · obtain ⟨found, caches, hget, _⟩ := h.get_answer hphase key
        rw [step_get_ok hget]
        exact hsmooth
      · rw [step_get_error (Index.get_of_ne_readable hphase)]
        exact hsmooth.of_phaseViolation
    | makeReadable => exact hsmooth
    | makeWritable => exact hsmooth
    | makeWritableAndClear => exact hsmooth

theorem Faithful.placed_puts (h : s.Faithful order filter) (hphase : s.index.phase = .writable)
    (entries : List (K × V)) (hsafe : ∀ entry ∈ entries, order.Safe entry.1) :
    s.placed (Operation.puts entries) = entries.map Prod.fst := by
  induction entries generalizing s with
  | nil => rfl
  | cons entry rest ih =>
    have hrest := fun other hother => hsafe other (List.mem_cons_of_mem entry hother)
    obtain ⟨after, hput⟩ : ∃ after,
        s.index.put entry.1 entry.2 = (.ok (), { s.index with arena := after }) :=
      h.put_ok hphase (hsafe entry List.mem_cons_self)
    have hstep := h.step (.put entry.1 entry.2)
    rw [step_put_ok hput] at hstep
    have hlater := ih hstep hphase hrest
    rw [Operation.puts_cons, placed, placedBy, step_put_ok hput, hput, hlater]
    rfl

section Shape

variable [Quotable K] {holds : K → Bool} {render : K → String}

theorem shaped_run (operations : List (Operation K V))
    (hsmooth : ((ofPredicate order holds render).run operations).Smooth) :
    ((ofPredicate order holds render).run operations).Shaped order (.predicate holds)
      ((ofPredicate order holds render).placed operations) := by
  have hrun := shaped_ofPredicate.run faithful_ofPredicate operations hsmooth
  rwa [List.append_nil] at hrun

/-- When no put has run into a cycle, an index has the shape that the keys put so far give it. No
other history that puts at these keys runs into a cycle, and whichever puts at just these keys, in
whatever order, ends in the same kinds of nodes and the same numbers of query nodes and links. -/
theorem shape_of_smooth (order : KeyOrder K) (holds : K → Bool) (render : K → String)
    (operations : List (Operation K V))
    (hsmooth : ((ofPredicate order holds render).run operations).Smooth) :
    let keys := (ofPredicate order holds render).placed operations
    let index := ((ofPredicate order holds render).run operations).index
    index.ShapedBy order (.predicate holds) keys ∧
    ∀ (render' : K → String) (operations' : List (Operation K V)),
      let other := (ofPredicate order holds render').run operations'
      ((∀ key value, .put key value ∈ operations' → key ∈ keys) → other.Smooth) ∧
      (other.Smooth → (∀ key, key ∈ (ofPredicate order holds render').placed operations' ↔ key ∈ keys) →
        (∀ key, other.index.kindOf? key = index.kindOf? key) ∧
          other.index.queryCount = index.queryCount ∧ other.index.linkCount = index.linkCount) := by
  intro keys index
  have hshaped := shaped_run operations hsmooth
  refine ⟨Index.shapedBy_of_built hshaped.built, ?_⟩
  intro render' operations' other
  constructor
  · intro hkeys
    apply faithful_ofPredicate.smooth_of_safe fun _ _ => List.not_mem_nil
    intro key value hmem
    exact hshaped.safe (hkeys key value hmem)
  · intro hsmooth' hkeys
    have hother := (shaped_run operations' hsmooth').of_mem_iff fun key => (hkeys key).symm
    exact (Index.shapedBy_of_built hshaped.built).agree (Index.shapedBy_of_built hother.built)

theorem shape_of_smooth_diamond :
    let first : Session Int Nat := ofPredicate KeyOrder.diamond (fun key => key = 4) quote
    let up := first.run (Operation.puts [(1, 10), (2, 20)])
    let down := first.run (Operation.puts [(2, 20), (1, 10)])
    up.index.kindOf? 2 = some .leaf ∧ up.index.kindOf? 3 = none ∧
      down.index.kindOf? 2 = up.index.kindOf? 2 ∧ down.index.linkCount = up.index.linkCount := by
  intro first up down
  have hfirst : first.Faithful KeyOrder.diamond (.predicate fun key => key = 4) :=
    faithful_ofPredicate
  have hsafe : ∀ (entries : List (Int × Nat)), ∀ entry ∈ entries, KeyOrder.diamond.Safe entry.1 :=
    fun _ entry _ => KeyOrder.safe_diamond entry.1
  have hsmooth : ∀ operations, (first.run operations).Smooth := fun operations =>
    hfirst.smooth_of_safe (fun _ _ => List.not_mem_nil) operations
      fun key _ _ => KeyOrder.safe_diamond key
  have hup : first.placed (Operation.puts [(1, 10), (2, 20)]) = [1, 2] :=
    hfirst.placed_puts rfl _ (hsafe _)
  have hdown : first.placed (Operation.puts [(2, 20), (1, 10)]) = [2, 1] :=
    hfirst.placed_puts rfl _ (hsafe _)
  have hfour : ∀ key, 4 ∈ KeyOrder.diamond.successors key →
      KeyOrder.diamond.Nearest (.predicate fun key => key = 4) key 4 :=
    fun key hmem => ⟨4, hmem, .here rfl⟩
  obtain ⟨hshape, hothers⟩ := shape_of_smooth KeyOrder.diamond (fun key => key = 4) quote
    (Operation.puts [(1, 10), (2, 20)]) (hsmooth _)
  obtain ⟨_, hagree⟩ := hothers quote (Operation.puts [(2, 20), (1, 10)])
  obtain ⟨hkind, _, hlinks⟩ := hagree (hsmooth _) fun key => by
    change key ∈ first.placed _ ↔ key ∈ first.placed _
    rw [hup, hdown, List.mem_pair, List.mem_pair, or_comm]
  change Index.ShapedBy _ _ (first.placed _) up.index at hshape
  rw [hup] at hshape
  refine ⟨?_, ?_, hkind 2, hlinks⟩
  · exact (hshape.leaf_iff 2).2 ⟨rfl, by decide, 4, hfour 2 (by decide)⟩
  · exact (hshape.none_iff 3).2 (.inr ⟨rfl, by decide, 4, hfour 3 (by decide)⟩)

end Shape

end Session

end Downset
