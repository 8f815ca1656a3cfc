import Downset.Proofs.Arena.Links
import Downset.Proofs.Build.Cycles
import Downset.Proofs.Order.Frontier

/-!
# Consistent arenas

What an arena must be for the index over it to answer rightly, while a walk stands on a path
of keys. The nodes of the keys on the path are under construction: links may leave them, but
none leads to them, and this keeps the links free of cycles whatever the order is. Every link
leads to a nearest key; and the links to all nearest keys are there, for the keys that are
safe and no longer under construction. A walk that stops at a cycle leaves behind only nodes
of keys that are not safe, of which nothing of the kind is asked.

In an arena from which the bridged links were dropped a link may be missing. Which ones is a
parameter, `dropped`.
-/

namespace Downset.Arena

variable {K V : Type} [DecidableEq K]

/-- Kinds, keys and slots fit together, and each link is seen from both its ends. -/
structure WellFormed (filter : KeyFilter K) (arena : Arena K V) : Prop where
  size_pos : 0 < arena.nodes.size
  kind_sink : (arena.node .sink).kind = .sink
  slot_of_key : ∀ {n key}, (arena.node n).key? = some key → arena.slots.find? key = some n
  key_of_slot : ∀ {key n}, arena.slots.find? key = some n → n ≠ .sink →
    (arena.node n).key? = some key
  query_iff : ∀ {key n}, arena.slots.find? key = some n →
    ((arena.node n).kind = .query ↔ filter.accepts key = true)
  kind_above : ∀ {n m}, m ∈ (arena.node n).above → (arena.node m).kind = .query
  mirror : ∀ {n m}, m ∈ (arena.node n).above ↔ n ∈ (arena.node m).below
  skipped : ∀ {key found}, arena.skipped.find? key = some found →
    filter.accepts key = false ∧ arena.slots.find? key = none

/-- The nodes in `found` are those of the frontier of a key: no others, none of a key on the
path, and all of them if the key is safe. -/
structure IsFrontier (order : KeyOrder K) (filter : KeyFilter K) (path : List K)
    (arena : Arena K V) (key : K) (found : OrderedSet NodeId) : Prop where
  sound : ∀ m ∈ found, ∃ other,
    arena.slots.find? other = some m ∧ other ∉ path ∧ order.Frontier filter key other
  complete : order.Safe key → ∀ other, order.Frontier filter key other →
    ∃ m ∈ found, arena.slots.find? other = some m

/-- The state of an arena while a walk stands on a path. -/
structure Consistent (order : KeyOrder K) (filter : KeyFilter K) (dropped : K → K → Prop)
    (path : List K) (arena : Arena K V) : Prop extends WellFormed filter arena where
  no_lower : ∀ {key n}, key ∈ path → arena.slots.find? key = some n →
    ∀ m, m ∉ (arena.node n).below
  ranked : ∃ rank : NodeId → Nat, ∀ n m, m ∈ (arena.node n).above → rank n < rank m
  nearest : ∀ {n m key other}, m ∈ (arena.node n).above → (arena.node n).key? = some key →
    (arena.node m).key? = some other → order.Nearest filter key other
  remembered : ∀ {key found}, arena.skipped.find? key = some found →
    IsFrontier order filter path arena key found
  linked : ∀ {key n other}, order.Safe key → key ∉ path → arena.slots.find? key = some n →
    order.Nearest filter key other → ∃ m, arena.slots.find? other = some m ∧
      (m ∈ (arena.node n).above ∨ filter.accepts key = true ∧ dropped key other)

/-- Nothing that was there has gone: keys keep their slots, nodes their links and values. -/
structure Extends (arena after : Arena K V) : Prop where
  slot : ∀ {key n}, arena.slots.find? key = some n → after.slots.find? key = some n
  above : ∀ {n m}, m ∈ (arena.node n).above → m ∈ (after.node n).above
  values : ∀ n, (after.node n).values = (arena.node n).values

/-- What a walk leaves as it was: it meets no key of its path and makes no leaf. -/
structure Walked (path : List K) (arena after : Arena K V) : Prop extends Extends arena after where
  unmet : ∀ {key}, key ∈ path → ¬ arena.Met key → ¬ after.Met key
  leaf : ∀ {n}, (after.node n).kind = .leaf → (arena.node n).kind = .leaf

theorem Extends.refl (arena : Arena K V) : Extends arena arena :=
  ⟨fun h => h, fun h => h, fun _ => rfl⟩

theorem Extends.trans {arena middle after : Arena K V} (h : Extends arena middle)
    (h' : Extends middle after) : Extends arena after :=
  ⟨fun hs => h'.slot (h.slot hs), fun ha => h'.above (h.above ha),
    fun n => (h'.values n).trans (h.values n)⟩

theorem Walked.refl (path : List K) (arena : Arena K V) : Walked path arena arena :=
  ⟨.refl arena, fun _ h => h, fun h => h⟩

theorem Walked.trans {path : List K} {arena middle after : Arena K V} (h : Walked path arena middle)
    (h' : Walked path middle after) : Walked path arena after :=
  ⟨h.toExtends.trans h'.toExtends, fun hp hu => h'.unmet hp (h.unmet hp hu),
    fun hl => h.leaf (h'.leaf hl)⟩

theorem Walked.of_cons {path : List K} {key : K} {arena after : Arena K V}
    (h : Walked (key :: path) arena after) : Walked path arena after :=
  ⟨h.toExtends, fun hp => h.unmet (List.mem_cons_of_mem _ hp), h.leaf⟩

section

variable {order : KeyOrder K} {filter : KeyFilter K} {dropped : K → K → Prop} {path : List K}
  {arena after : Arena K V} {key other : K} {n m : NodeId} {found : OrderedSet NodeId}

namespace WellFormed

variable (h : arena.WellFormed filter)

include h

theorem ne_sink (hn : (arena.node n).kind ≠ .sink) : n ≠ .sink := by
  rintro rfl
  exact hn h.kind_sink

theorem nextId_ne_sink : arena.nextId ≠ .sink := by
  intro heq
  have hsize : arena.nodes.size = 0 := congrArg NodeId.index heq
  exact absurd h.size_pos (by omega)

theorem kind_of_accepts (hslot : arena.slots.find? key = some n)
    (hkey : filter.accepts key = true) : (arena.node n).kind = .query :=
  (h.query_iff hslot).2 hkey

theorem key_of_accepts (hslot : arena.slots.find? key = some n)
    (hkey : filter.accepts key = true) : (arena.node n).key? = some key :=
  h.key_of_slot hslot (h.ne_sink (query_ne_sink (h.kind_of_accepts hslot hkey)))

theorem slot_lt (hslot : arena.slots.find? key = some n) : n.index < arena.nodes.size := by
  by_cases hne : n = .sink
  · subst hne
    exact h.size_pos
  · exact index_lt_of_kind_ne_sink (kind_ne_sink (h.key_of_slot hslot hne))

/-- The slot to which a link leads is that of an accepted key. -/
theorem exists_key_above (ha : m ∈ (arena.node n).above) : ∃ other,
    (arena.node m).key? = some other ∧ arena.slots.find? other = some m ∧
      filter.accepts other = true := by
  have hkind := h.kind_above ha
  obtain ⟨other, hother⟩ := exists_key (n := m) (query_ne_sink hkind)
  have hslot := h.slot_of_key hother
  exact ⟨other, hother, hslot, (h.query_iff hslot).1 hkind⟩

end WellFormed

namespace SameNodes

variable (hsame : SameNodes arena after)

include hsame

theorem met_iff : after.Met key ↔ arena.Met key := by
  rw [Arena.met_iff, Arena.met_iff, hsame.slots, hsame.skipped]

theorem meetsSafe (h : arena.MeetsSafe order path) : after.MeetsSafe order path :=
  fun other hmet => h other (hsame.met_iff.1 hmet)

theorem wellFormed (h : arena.WellFormed filter)
    (hkind : ∀ n m, m ∈ (after.node n).above → (arena.node m).kind = .query)
    (hmirror : ∀ n m, m ∈ (after.node n).above ↔ n ∈ (after.node m).below) :
    after.WellFormed filter := by
  refine ⟨?_, ?_, ?_, ?_, ?_, ?_, fun {n m} => hmirror n m, ?_⟩
  · rw [hsame.size]
    exact h.size_pos
  · rw [hsame.kind]
    exact h.kind_sink
  · intro n key hkey
    rw [hsame.key?] at hkey
    rw [hsame.slots]
    exact h.slot_of_key hkey
  · intro key n hslot hn
    rw [hsame.slots] at hslot
    rw [hsame.key?]
    exact h.key_of_slot hslot hn
  · intro key n hslot
    rw [hsame.slots] at hslot
    rw [hsame.kind]
    exact h.query_iff hslot
  · intro n m ha
    rw [hsame.kind]
    exact hkind n m ha
  · intro key found hfound
    rw [hsame.skipped] at hfound
    rw [hsame.slots]
    exact h.skipped hfound

end SameNodes

namespace IsFrontier

theorem kind_eq_query (h : IsFrontier order filter path arena key found)
    (hformed : arena.WellFormed filter) (hm : m ∈ found) : (arena.node m).kind = .query := by
  obtain ⟨other, hslot, _, hfrontier⟩ := h.sound m hm
  exact hformed.kind_of_accepts hslot hfrontier.accepted

theorem extend (h : IsFrontier order filter path arena key found) (he : Extends arena after) :
    IsFrontier order filter path after key found := by
  constructor
  · intro m hm
    obtain ⟨other, hslot, hpath, hf⟩ := h.sound m hm
    exact ⟨other, he.slot hslot, hpath, hf⟩
  · intro hsafe other hf
    obtain ⟨m, hm, hslot⟩ := h.complete hsafe other hf
    exact ⟨m, hm, he.slot hslot⟩

theorem of_cons (h : IsFrontier order filter (other :: path) arena key found) :
    IsFrontier order filter path arena key found := by
  refine ⟨fun m hm => ?_, h.complete⟩
  obtain ⟨third, hslot, hpath, hf⟩ := h.sound m hm
  exact ⟨third, hslot, fun hmem => hpath (List.mem_cons_of_mem _ hmem), hf⟩

theorem cons (h : IsFrontier order filter path arena key found)
    (hother : arena.slots.find? other = none) :
    IsFrontier order filter (other :: path) arena key found := by
  refine ⟨fun m hm => ?_, h.complete⟩
  obtain ⟨third, hslot, hpath, hf⟩ := h.sound m hm
  refine ⟨third, hslot, ?_, hf⟩
  rw [List.mem_cons, not_or]
  refine ⟨?_, hpath⟩
  rintro rfl
  simp [hslot] at hother

end IsFrontier

end

end Downset.Arena
