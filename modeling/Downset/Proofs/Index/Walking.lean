import Downset.Proofs.Arena.Shape
import Downset.Proofs.Build.Stack
import Downset.Proofs.Index.Faithful

/-!
# Walks remember rightly

A walk answers from what earlier walks left behind: slots of query nodes, leaves and dead ends, and
what was remembered of keys that were passed over. All this was recorded on other paths and in other
arenas, and some of the walks stopped at a cycle. Still a walk to a safe key answers as the plain
recursion does. So it does between the operations of a session and also while a key is being put,
with some keys on the path whose links are not made yet.
-/

namespace Downset

variable {K V : Type} [DecidableEq K]

/-- While a key is being put, a walk stands on this path and has built this arena. The walk goes up
key by key; it is through with some successors of the key that it put on the path last. -/
inductive Underway (order : KeyOrder K) (filter : KeyFilter K) (start : Arena K V) :
    List K → Arena K V → Prop
  | idle : Underway order filter start [] start
  | query {path : List K} {arena : Arena K V} {key : K}
      (before : Underway order filter start path arena) (leads : order.Leads path key)
      (new : key ∉ path) (unmet : arena.frontier? key = none)
      (accepted : filter.accepts key = true) :
      Underway order filter start (key :: path) (arena.addNode key (.newQuery key))
  | pass {path : List K} {arena : Arena K V} {key : K}
      (before : Underway order filter start path arena) (leads : order.Leads path key)
      (new : key ∉ path) (unmet : arena.frontier? key = none)
      (rejected : filter.accepts key = false) :
      Underway order filter start (key :: path) arena
  | link {path : List K} {arena after : Arena K V} {key next : K} {found : OrderedSet NodeId}
      (before : Underway order filter start (key :: path) arena)
      (accepted : filter.accepts key = true) (step : next ∈ order.successors key)
      (walk : Build.Walks order filter next ⟨key :: path, arena⟩ found ⟨key :: path, after⟩) :
      Underway order filter start (key :: path)
        (after.linkAll (after.slotOf key) found.toList)
  | gather {path : List K} {arena after : Arena K V} {key next : K} {found : OrderedSet NodeId}
      (before : Underway order filter start (key :: path) arena)
      (rejected : filter.accepts key = false) (step : next ∈ order.successors key)
      (walk : Build.Walks order filter next ⟨key :: path, arena⟩ found ⟨key :: path, after⟩) :
      Underway order filter start (key :: path) after

namespace Underway

variable {order : KeyOrder K} {filter : KeyFilter K} {dropped : K → K → Prop} {path : List K}
  {start arena after : Arena K V} {key next : K} {found : OrderedSet NodeId}

open Arena

/-- The arena is consistent, the path goes up by single steps, and the accepted keys on it have
slots. -/
structure Sound (order : KeyOrder K) (filter : KeyFilter K) (dropped : K → K → Prop)
    (path : List K) (arena : Arena K V) : Prop
    extends Consistent order filter dropped path arena where
  steps : path.IsChain fun upper lower => upper ∈ order.successors lower
  placed : ∀ key ∈ path, filter.accepts key = true → ∃ n, arena.slots.find? key = some n

namespace Sound

theorem walk (h : Sound order filter dropped (key :: path) arena)
    (hnext : next ∈ order.successors key)
    (hwalk : Build.Walks order filter next ⟨key :: path, arena⟩ found ⟨key :: path, after⟩) :
    Sound order filter dropped (key :: path) after ∧
      IsFrontier order filter (key :: path) after next found := by
  have hleads : order.Leads (key :: path) next := .cons h.steps hnext
  have hexplores := Build.explores_reach h.toConsistent hleads.above
  unfold Build.Explores Build.Ends at hexplores
  rw [(Build.walks_iff.1 hwalk).2] at hexplores
  obtain ⟨hafter, hwalked, hfound⟩ := hexplores
  refine ⟨⟨hafter, h.steps, fun other hother haccepts => ?_⟩, hfound⟩
  obtain ⟨n, hn⟩ := h.placed other hother haccepts
  exact ⟨n, hwalked.slot hn⟩

theorem linkAll (h : Sound order filter dropped (key :: path) arena)
    (hkey : filter.accepts key = true) (hnext : next ∈ order.successors key)
    (hfound : IsFrontier order filter (key :: path) arena next found) :
    Sound order filter dropped (key :: path)
      (arena.linkAll (arena.slotOf key) found.toList) := by
  obtain ⟨n, hn⟩ := h.placed key List.mem_cons_self hkey
  rw [slotOf_eq hn]
  obtain ⟨hafter, hwalked⟩ := h.toConsistent.linkAll found.toList List.mem_cons_self
    (h.key_of_accepts hn hkey) fun upper hupper => by
      obtain ⟨other, hslot, hother, hfrontier⟩ := hfound.sound upper hupper
      exact ⟨other, hslot, hother, next, hnext, hfrontier⟩
  refine ⟨hafter, h.steps, fun other hother haccepts => ?_⟩
  obtain ⟨m, hm⟩ := h.placed other hother haccepts
  exact ⟨m, hwalked.slot hm⟩

end Sound

theorem sound (h : Underway order filter start path arena)
    (hstart : Consistent order filter dropped [] start) :
    Sound order filter dropped path arena := by
  induction h with
  | idle => exact ⟨hstart, .nil, fun key hkey => absurd hkey List.not_mem_nil⟩
  | query before leads new unmet accepted ih =>
    obtain ⟨hafter, hslot⟩ :=
      Build.consistent_addQuery ih.toConsistent (fun hmet => hmet unmet) accepted
    refine ⟨hafter, leads, fun other hother haccepts => ?_⟩
    rcases List.mem_cons.1 hother with rfl | hother
    · exact ⟨_, hslot⟩
    · obtain ⟨n, hn⟩ := ih.placed other hother haccepts
      exact ⟨n, (extends_addNode (frontier?_eq_none_iff.1 unmet).1 rfl rfl).slot hn⟩
  | pass before leads new unmet rejected ih =>
    refine ⟨ih.toConsistent.cons (frontier?_eq_none_iff.1 unmet).1, leads, ?_⟩
    intro other hother haccepts
    rcases List.mem_cons.1 hother with rfl | hother
    · cases haccepts.symm.trans rejected
    · exact ih.placed other hother haccepts
  | link before accepted step walk ih =>
    obtain ⟨hafter, hfound⟩ := ih.walk step walk
    exact hafter.linkAll accepted step hfound
  | gather before rejected step walk ih => exact (ih.walk step walk).1

end Underway

/-- The first put at a key that is not safe fails, and it meets keys at or above that key only. -/
theorem Index.put_of_not_safe [DecidableEq V] [Quotable K] {order : KeyOrder K} {key : K}
    (hkey : ¬ order.Safe key) (holds : K → Bool) (value : V) :
    ∃ fault after, (ofPredicate order holds).put key value =
      (.error fault, { (ofPredicate order holds : Index K V) with arena := after }) ∧
        (∅ : Arena K V).MeetsAbove order key after := by
  have hclosed : (∅ : Arena K V).Closed order [] := fun other hmet => absurd rfl hmet
  have hempty := Arena.consistent_empty (V := V) order (.predicate holds) fun _ _ => False
  have hends : (Build.locate order (.predicate holds) key).Ends (∅ : Arena K V) _ _ :=
    (Build.locate_spec hempty).and (Build.locate_discovers hclosed)
  rcases (ofPredicate order holds : Index K V).locate_ends hends with
    ⟨_, after, _, hlocates, _⟩ | ⟨_, after, hlocate, _, hmeets⟩
  · exact absurd (hlocates.safe (Arena.meetsSafe_empty order)).2 hkey
  · exact ⟨_, after, put_of_abandoned rfl hlocate, hmeets⟩

namespace Session

variable [DecidableEq V] [Quotable K] {order : KeyOrder K} {index : Index K V}

/-- Beyond an accepted key lies its own node, and beyond any other key what lies beyond its
successors. At any time, also after puts that failed and while a key is being put, a walk that keeps
a single path answers at a safe key, by whichever path it came there. The answer is the only one, it
is that of the walk that is handed its path, the path is restored, and what was found are the nodes
that the plain recursion finds. -/
theorem walks_find_beyond (hindex : index.Initial order) (operations : List (Operation K V)) :
    let s := (start index).run operations
    let filter := index.filter
    (∀ (node : K → NodeId) key, order.Safe key → order.beyond filter node key =
      if filter.accepts key then .singleton (node key)
      else (∅ : OrderedSet NodeId).unionAll
        ((order.successors key).map (order.beyond filter node))) ∧
    ∀ base arena, Underway order filter s.index.arena base arena → ∀ path key,
      order.Leads base key → order.Leads path key → order.Safe key → ∃ found after,
        (Build.reach order filter path key).run arena = (.ok found, after) ∧
        (∀ found' after', Build.Walks order filter key ⟨path, arena⟩ found' after' ↔
          found' = found ∧ after' = ⟨path, after⟩) ∧
        (∀ other, order.Frontier filter key other → ∃ n, after.slots.find? other = some n) ∧
        ∀ n, n ∈ found ↔ n ∈ order.beyond filter after.slotOf key := by
  intro s filter
  have hs : s.Faithful order filter := (faithful_start hindex).run operations
  refine ⟨fun node key => KeyOrder.beyond_eq, ?_⟩
  intro base arena hunderway path key hbase hpath hsafe
  obtain ⟨found, after, hwalks, hfound⟩ :=
    Build.exists_walks (hunderway.sound hs.consistent).toConsistent hbase hpath hsafe
  have hrun := (Build.walks_iff.1 hwalks).2
  refine ⟨found, after, hrun, ?only, ?slots, ?same⟩
  case only =>
    intro found' after'
    constructor
    · intro hwalks'
      obtain ⟨hrestored, hrun'⟩ := Build.walks_iff.1 hwalks'
      rw [hrun, Prod.mk.injEq, Except.ok.injEq] at hrun'
      obtain ⟨rfl, rfl⟩ := hrun'
      exact ⟨rfl, hrestored ▸ rfl⟩
    · rintro ⟨rfl, rfl⟩
      exact hwalks
  case slots =>
    intro other hother
    obtain ⟨n, _, hn⟩ := hfound.complete hsafe other hother
    exact ⟨n, hn⟩
  case same =>
    intro n
    rw [KeyOrder.mem_beyond hsafe]
    constructor
    · intro hn
      obtain ⟨other, hslot, _, hother⟩ := hfound.sound n hn
      exact ⟨other, hother, Arena.slotOf_eq hslot⟩
    · rintro ⟨other, hother, rfl⟩
      obtain ⟨n, hn, hslot⟩ := hfound.complete hsafe other hother
      rw [Arena.slotOf_eq hslot]
      exact hn

/-- The put at one key of the knot stops at the cycle, with the key beside it built. While a put at
the key below that one is under way, a walk finds what was built. -/
theorem walks_find_beyond_knot :
    let index : Index Int Nat := .ofPredicate KeyOrder.knot fun key => key = 4
    let s := (start index).run [.put 1 10]
    s.faults.length = 1 ∧
    Underway KeyOrder.knot index.filter s.index.arena [3] s.index.arena ∧
    KeyOrder.knot.Leads [3] 4 ∧ KeyOrder.knot.Safe 4 ∧ ∃ found after n,
      (Build.reach KeyOrder.knot index.filter [3] 4).run s.index.arena = (.ok found, after) ∧
        after.slots.find? 4 = some n ∧ n ∈ found := by
  intro index s
  have hindex : index.Initial KeyOrder.knot := .ofPredicate _
  obtain ⟨fault, after, hput, hmeets⟩ := Index.put_of_not_safe
    (KeyOrder.not_safe_of_onCycle .refl KeyOrder.onCycle_knot) (fun key : Int => key = 4) 10
  have hs : s = ⟨{ index with arena := after }, [], [fault]⟩ := step_put_error hput
  have hunmet : s.index.arena.frontier? 3 = none := by
    rw [hs]
    by_contra hmet
    have hclosed : ∀ lower ∈ [1, 4, 2], ∀ upper ∈ KeyOrder.knot.successors lower,
        upper ∈ [1, 4, 2] := by decide
    exact absurd (((hmeets 3 hmet).resolve_left fun h => h rfl).mem_of_closed hclosed (by decide))
      (by decide)
  have hsafe : KeyOrder.knot.Safe 4 := KeyOrder.safe_knot.of_mem (by decide)
  have hleads : KeyOrder.knot.Leads [3] 4 := KeyOrder.leads_nil.cons (by decide)
  have hunderway : Underway KeyOrder.knot index.filter s.index.arena [3] s.index.arena :=
    .pass .idle KeyOrder.leads_nil List.not_mem_nil hunmet rfl
  obtain ⟨_, hwalks⟩ := walks_find_beyond hindex [.put 1 10]
  obtain ⟨found, after, hrun, _, hslots, hfound⟩ :=
    hwalks [3] s.index.arena hunderway [3] 4 hleads hleads hsafe
  obtain ⟨n, hn⟩ := hslots 4 (.here rfl)
  refine ⟨by rw [hs]; rfl, hunderway, hleads, hsafe, found, after, n, hrun, hn, (hfound n).2 ?_⟩
  rw [KeyOrder.mem_beyond hsafe]
  exact ⟨4, .here rfl, Arena.slotOf_eq hn⟩

end Session

end Downset
