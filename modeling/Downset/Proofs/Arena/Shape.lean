import Downset.Proofs.Arena.Counting
import Downset.Proofs.Arena.Flow
import Downset.Proofs.Build.Discovery
import Downset.Proofs.Build.Leaves
import Downset.Proofs.Index.Requests

/-!
# The shape of an arena

When keys were located one after another and none of the walks was given up, what the arena
looks like depends only on which keys these were. Accepted keys at or above them have query
nodes; of the other keys those that were located themselves are leaves, unless no accepted key
lies above them; and the links are those from each of these keys to its nearest keys. In what
order the keys came, and whether a key was first passed over and then located, leaves no trace
but in the numbers of the slots.
-/

namespace Downset

variable {K V : Type}

/-- The key lies at or above a key of the list. -/
def KeyOrder.Upward (order : KeyOrder K) (keys : List K) (key : K) : Prop :=
  ∃ lower ∈ keys, Reaches order.successors lower key

theorem KeyOrder.upward_of_mem {order : KeyOrder K} {keys : List K} {key : K} (h : key ∈ keys) :
    order.Upward keys key :=
  ⟨key, h, .refl⟩

variable [DecidableEq K]

namespace Arena

/-- The state of an arena in which the keys of a list were located, with all links to nearest
keys kept. -/
structure Built (order : KeyOrder K) (filter : KeyFilter K) (placed : List K) (arena : Arena K V) :
    Prop extends Consistent order filter (fun _ _ => False) [] arena, arena.Productive where
  safe : arena.MeetsSafe order []
  met_iff : ∀ key, arena.Met key ↔ order.Upward placed key
  located : ∀ key ∈ placed, ∃ n, arena.slots.find? key = some n
  placed_of_leaf : ∀ key n, arena.slots.find? key = some n → (arena.node n).kind = .leaf →
    key ∈ placed

def slotOf (arena : Arena K V) (key : K) : NodeId := (arena.slots.find? key).getD .sink

variable {order : KeyOrder K} {filter : KeyFilter K} {placed : List K} {arena after : Arena K V}
  {key other : K} {n m id : NodeId}

theorem slotOf_eq (hslot : arena.slots.find? key = some n) : arena.slotOf key = n := by
  simp [slotOf, hslot]

theorem Productive.of_sameShape (h : arena.Productive) (hshape : arena.SameShape after) :
    after.Productive := by
  constructor
  · intro n hn
    rw [hshape.kind] at hn
    rw [hshape.above]
    exact h.leaf_above n hn
  · intro key found hfound
    rw [hshape.skipped] at hfound
    exact h.skipped_some key found hfound

namespace Built

theorem closed (h : arena.Built order filter placed) : arena.Closed order [] := by
  intro lower hlower
  obtain ⟨first, hfirst, hreaches⟩ := (h.met_iff lower).1 hlower
  exact .inr fun next hnext => (h.met_iff next).2 ⟨first, hfirst, hreaches.tail hnext⟩

theorem locate (h : arena.Built order filter placed)
    (hlocates : arena.Locates order filter (fun _ _ => False) key id after)
    (hdiscovers : arena.Discovers order [] key after) (hproductive : after.Productive)
    (hleaf : ∀ n, (after.node n).kind = .leaf → (arena.node n).kind = .leaf ∨ n = id) :
    after.Built order filter (key :: placed) := by
  have hafter := hlocates.consistent
  have hkey : after.Met key := met_of_slot hlocates.located
  refine ⟨hafter, hproductive, (hlocates.safe h.safe).1, ?met, ?located, ?leaf⟩
  case met =>
    intro other
    constructor
    · intro hother
      rcases hdiscovers.reached other hother with hold | hreaches
      · obtain ⟨lower, hlower, hreaches⟩ := (h.met_iff other).1 hold
        exact ⟨lower, List.mem_cons_of_mem key hlower, hreaches⟩
      · exact ⟨key, List.mem_cons_self, hreaches⟩
    · rintro ⟨lower, hlower, hreaches⟩
      rcases List.mem_cons.1 hlower with rfl | hlower
      · exact hdiscovers.closed.met_of_reaches hkey hreaches
      · exact hdiscovers.kept other ((h.met_iff other).2 ⟨lower, hlower, hreaches⟩)
  case located =>
    intro other hother
    rcases List.mem_cons.1 hother with rfl | hother
    · exact ⟨id, hlocates.located⟩
    · obtain ⟨n, hn⟩ := h.located other hother
      exact ⟨n, hlocates.slot hn⟩
  case leaf =>
    intro other n hother hn
    have hne : (after.node n).kind ≠ .sink := by rw [hn]; decide
    have hn' : n ≠ .sink := hafter.ne_sink hne
    have hkey' := hafter.key_of_slot hother hn'
    rcases hleaf n hn with hold | rfl
    · have hne' : (arena.node n).kind ≠ .sink := by rw [hold]; decide
      obtain ⟨first, hfirst⟩ := exists_key hne'
      have hslot := h.slot_of_key hfirst
      have heq := hafter.key_of_slot (hlocates.slot hslot) hn'
      rw [hkey', Option.some.injEq] at heq
      subst heq
      exact List.mem_cons_of_mem key (h.placed_of_leaf other n hslot hold)
    · have heq := hafter.key_of_slot hlocates.located hn'
      rw [hkey', Option.some.injEq] at heq
      exact heq ▸ List.mem_cons_self

theorem of_sameShape (h : arena.Built order filter placed) (hshape : arena.SameShape after) :
    after.Built order filter placed := by
  refine ⟨hshape.consistent h.toConsistent, h.toProductive.of_sameShape hshape,
    hshape.meetsSafe h.safe, ?_, ?_, ?_⟩
  · intro other
    rw [hshape.met_iff]
    exact h.met_iff other
  · intro other hother
    rw [hshape.slots]
    exact h.located other hother
  · intro other n hother hn
    rw [hshape.slots] at hother
    rw [hshape.kind] at hn
    exact h.placed_of_leaf other n hother hn

section Kinds

variable (h : arena.Built order filter placed)

include h

theorem safe_of_met (hmet : arena.Met key) : order.Safe key :=
  (h.safe key hmet).resolve_left List.not_mem_nil

/-- The links of a node are those to the nodes of the nearest keys. -/
theorem mem_above_iff (hslot : arena.slots.find? key = some n) (hn : n ≠ .sink) :
    m ∈ (arena.node n).above ↔
      ∃ other, order.Nearest filter key other ∧ arena.slots.find? other = some m := by
  have hkey := h.key_of_slot hslot hn
  constructor
  · intro hm
    obtain ⟨other, hother, hslot', _⟩ := h.exists_key_above hm
    exact ⟨other, h.nearest hm hkey hother, hslot'⟩
  · rintro ⟨other, hnearest, hother⟩
    obtain ⟨m', hm', hlinked⟩ := h.linked (h.safe_of_met (met_of_slot hslot)) List.not_mem_nil
      hslot hnearest
    rw [hother, Option.some.injEq] at hm'
    subst hm'
    rcases hlinked with ha | ⟨_, hfalse⟩
    · exact ha
    · exact absurd hfalse id

/-- A rejected key is a leaf exactly if it was located and lies below an accepted key. -/
theorem kind_eq_leaf_iff (hkey : filter.accepts key = false) (hslot : arena.slots.find? key = some n) :
    (arena.node n).kind = .leaf ↔ ∃ other, order.Nearest filter key other := by
  constructor
  · intro hn
    have hne : n ≠ .sink := h.ne_sink (by rw [hn]; decide)
    obtain ⟨m, hm⟩ := h.leaf_above n hn
    obtain ⟨other, hnearest, _⟩ := (h.mem_above_iff hslot hne).1 hm
    exact ⟨other, hnearest⟩
  · rintro ⟨other, hnearest⟩
    obtain ⟨m, _, hlinked⟩ := h.linked (h.safe_of_met (met_of_slot hslot)) List.not_mem_nil
      hslot hnearest
    have ha : m ∈ (arena.node n).above := hlinked.resolve_right fun hfalse => hfalse.2
    have hquery : (arena.node n).kind ≠ .query := by
      rw [Ne, h.query_iff hslot, hkey]
      decide
    cases hkind : (arena.node n).kind with
    | query => exact absurd hkind hquery
    | leaf => rfl
    | sink => exact absurd hkind (kind_ne_sink_of_mem_above ha)

theorem find?_of_accepts (hkey : filter.accepts key = true) (hup : order.Upward placed key) :
    ∃ n, arena.slots.find? key = some n := by
  rcases Arena.met_iff.1 ((h.met_iff key).2 hup) with hslot | hskipped
  · exact Option.ne_none_iff_exists'.1 hslot
  · obtain ⟨found, hfound⟩ := Option.ne_none_iff_exists'.1 hskipped
    rw [(h.skipped hfound).1] at hkey
    cases hkey

theorem find?_of_no_nearest (hkey : filter.accepts key = false) (hup : order.Upward placed key)
    (hnone : ¬ ∃ other, order.Nearest filter key other) :
    ∃ n, arena.slots.find? key = some n := by
  rcases Arena.met_iff.1 ((h.met_iff key).2 hup) with hslot | hskipped
  · exact Option.ne_none_iff_exists'.1 hslot
  · obtain ⟨found, hfound⟩ := Option.ne_none_iff_exists'.1 hskipped
    obtain ⟨m, hm⟩ := h.skipped_some key found hfound
    obtain ⟨other, _, _, hfrontier⟩ := (h.remembered hfound).sound m hm
    exact absurd ⟨other, (KeyOrder.frontier_iff_nearest hkey).1 hfrontier⟩ hnone

theorem kindOf?_eq_query_iff :
    arena.kindOf? key = some .query ↔ filter.accepts key = true ∧ order.Upward placed key := by
  constructor
  · intro hkind
    obtain ⟨n, hn, hquery⟩ := Option.map_eq_some_iff.1 hkind
    exact ⟨(h.query_iff hn).1 hquery, (h.met_iff key).1 (met_of_slot hn)⟩
  · rintro ⟨hkey, hup⟩
    obtain ⟨n, hn⟩ := h.find?_of_accepts hkey hup
    rw [kindOf?, hn, Option.map_some, h.kind_of_accepts hn hkey]

theorem kindOf?_eq_leaf_iff :
    arena.kindOf? key = some .leaf ↔ filter.accepts key = false ∧ key ∈ placed ∧
      ∃ other, order.Nearest filter key other := by
  constructor
  · intro hkind
    obtain ⟨n, hn, hleaf⟩ := Option.map_eq_some_iff.1 hkind
    have hkey : filter.accepts key = false := by
      rw [← Bool.not_eq_true, ← h.query_iff hn, hleaf]
      decide
    exact ⟨hkey, h.placed_of_leaf key n hn hleaf, (h.kind_eq_leaf_iff hkey hn).1 hleaf⟩
  · rintro ⟨hkey, hplaced, hnearest⟩
    obtain ⟨n, hn⟩ := h.located key hplaced
    rw [kindOf?, hn, Option.map_some, (h.kind_eq_leaf_iff hkey hn).2 hnearest]

theorem kindOf?_eq_sink_iff :
    arena.kindOf? key = some .sink ↔ filter.accepts key = false ∧ order.Upward placed key ∧
      ¬ ∃ other, order.Nearest filter key other := by
  constructor
  · intro hkind
    obtain ⟨n, hn, hsink⟩ := Option.map_eq_some_iff.1 hkind
    have hkey : filter.accepts key = false := by
      rw [← Bool.not_eq_true, ← h.query_iff hn, hsink]
      decide
    refine ⟨hkey, (h.met_iff key).1 (met_of_slot hn), ?_⟩
    rw [← h.kind_eq_leaf_iff hkey hn, hsink]
    decide
  · rintro ⟨hkey, hup, hnone⟩
    obtain ⟨n, hn⟩ := h.find?_of_no_nearest hkey hup hnone
    rw [kindOf?, hn, Option.map_some]
    cases hkind : (arena.node n).kind with
    | query =>
      rw [(h.query_iff hn).1 hkind] at hkey
      cases hkey
    | leaf => exact absurd ((h.kind_eq_leaf_iff hkey hn).1 hkind) hnone
    | sink => rfl

/-- A key is unknown unless it lies above some located key, and also when it was passed over. -/
theorem kindOf?_eq_none_iff :
    arena.kindOf? key = none ↔ ¬ order.Upward placed key ∨
      filter.accepts key = false ∧ key ∉ placed ∧ ∃ other, order.Nearest filter key other := by
  have hquery : arena.kindOf? key = some .query ↔ _ := h.kindOf?_eq_query_iff
  have hleaf : arena.kindOf? key = some .leaf ↔ _ := h.kindOf?_eq_leaf_iff
  have hsink : arena.kindOf? key = some .sink ↔ _ := h.kindOf?_eq_sink_iff
  have hup : key ∈ placed → order.Upward placed key := KeyOrder.upward_of_mem
  cases hkind : arena.kindOf? key with
  | none => grind
  | some kind => cases kind <;> grind

end Kinds

section Counts

variable (h : arena.Built order filter placed)

include h

/-- The keys whose nodes may have links have slots, and their links are there. -/
theorem exists_link (hkey : key ∈ placed ∨ filter.accepts key = true ∧ order.Upward placed key)
    (hnearest : order.Nearest filter key other) :
    ∃ n m, arena.slots.find? key = some n ∧ arena.slots.find? other = some m ∧
      m ∈ (arena.node n).above := by
  have hslot : ∃ n, arena.slots.find? key = some n := by
    rcases hkey with hplaced | ⟨haccepts, hup⟩
    · exact h.located key hplaced
    · exact h.find?_of_accepts haccepts hup
  obtain ⟨n, hn⟩ := hslot
  obtain ⟨m, hm, hlinked⟩ := h.linked (h.safe_of_met (met_of_slot hn)) List.not_mem_nil hn hnearest
  exact ⟨n, m, hn, hm, hlinked.resolve_right fun hfalse => hfalse.2⟩

theorem exists_keys_of_link (hm : m ∈ (arena.node n).above) :
    ∃ key other, arena.slots.find? key = some n ∧ arena.slots.find? other = some m ∧
      (key ∈ placed ∨ filter.accepts key = true ∧ order.Upward placed key) ∧
      order.Nearest filter key other := by
  have hne := kind_ne_sink_of_mem_above hm
  obtain ⟨key, hkey⟩ := exists_key hne
  have hslot := h.slot_of_key hkey
  obtain ⟨other, hnearest, hother⟩ := (h.mem_above_iff hslot (h.ne_sink hne)).1 hm
  refine ⟨key, other, hslot, hother, ?_, hnearest⟩
  cases hkind : (arena.node n).kind with
  | query => exact .inr ⟨(h.query_iff hslot).1 hkind, (h.met_iff key).1 (met_of_slot hslot)⟩
  | leaf => exact .inl (h.placed_of_leaf key n hslot hkind)
  | sink => exact absurd hkind hne

theorem queryCount_eq :
    arena.queryCount = Set.ncard {key | filter.accepts key = true ∧ order.Upward placed key} := by
  have hinj : Set.InjOn arena.slotOf {key | filter.accepts key = true ∧ order.Upward placed key} := by
    rintro key ⟨hkey, hup⟩ other ⟨hother, hup'⟩ heq
    obtain ⟨n, hn⟩ := h.find?_of_accepts hkey hup
    obtain ⟨m, hm⟩ := h.find?_of_accepts hother hup'
    rw [slotOf_eq hn, slotOf_eq hm] at heq
    have hkey' := h.key_of_accepts hn hkey
    rw [heq, h.key_of_accepts hm hother, Option.some.injEq] at hkey'
    exact hkey'.symm
  have himage : arena.slotOf '' {key | filter.accepts key = true ∧ order.Upward placed key} =
      {n | (arena.node n).kind = .query} := by
    ext n
    constructor
    · rintro ⟨key, ⟨hkey, hup⟩, rfl⟩
      obtain ⟨n, hn⟩ := h.find?_of_accepts hkey hup
      rw [slotOf_eq hn]
      exact h.kind_of_accepts hn hkey
    · intro hn
      obtain ⟨key, hkey⟩ := exists_key (query_ne_sink hn)
      have hslot := h.slot_of_key hkey
      refine ⟨key, ⟨(h.query_iff hslot).1 hn, ?_⟩, slotOf_eq hslot⟩
      exact (h.met_iff key).1 (met_of_slot hslot)
  rw [queryCount_eq_ncard, ← himage, hinj.ncard_image]

theorem linkCount_eq :
    arena.linkCount = Set.ncard {pair : K × K |
      (pair.1 ∈ placed ∨ filter.accepts pair.1 = true ∧ order.Upward placed pair.1) ∧
        order.Nearest filter pair.1 pair.2} := by
  have hinj : Set.InjOn (Prod.map arena.slotOf arena.slotOf) {pair : K × K |
      (pair.1 ∈ placed ∨ filter.accepts pair.1 = true ∧ order.Upward placed pair.1) ∧
        order.Nearest filter pair.1 pair.2} := by
    rintro ⟨key, other⟩ ⟨hkey, hnearest⟩ ⟨key', other'⟩ ⟨hkey', hnearest'⟩ heq
    obtain ⟨n, m, hn, hm, ha⟩ := h.exists_link hkey hnearest
    obtain ⟨n', m', hn', hm', ha'⟩ := h.exists_link hkey' hnearest'
    simp only [Prod.map_apply, slotOf_eq hn, slotOf_eq hm, slotOf_eq hn', slotOf_eq hm',
      Prod.mk.injEq] at heq
    obtain ⟨rfl, rfl⟩ := heq
    have hlower := h.key_of_slot hn (h.ne_sink (kind_ne_sink_of_mem_above ha))
    rw [h.key_of_slot hn' (h.ne_sink (kind_ne_sink_of_mem_above ha)), Option.some.injEq] at hlower
    have hupper := h.key_of_accepts hm hnearest.accepted
    rw [h.key_of_accepts hm' hnearest'.accepted, Option.some.injEq] at hupper
    exact Prod.ext hlower.symm hupper.symm
  have himage : Prod.map arena.slotOf arena.slotOf '' {pair : K × K |
      (pair.1 ∈ placed ∨ filter.accepts pair.1 = true ∧ order.Upward placed pair.1) ∧
        order.Nearest filter pair.1 pair.2} =
      {pair : NodeId × NodeId | pair.2 ∈ (arena.node pair.1).above} := by
    ext ⟨n, m⟩
    constructor
    · rintro ⟨⟨key, other⟩, ⟨hkey, hnearest⟩, heq⟩
      obtain ⟨i, j, hi, hj, ha⟩ := h.exists_link hkey hnearest
      simp only [Prod.map_apply, slotOf_eq hi, slotOf_eq hj, Prod.mk.injEq] at heq
      obtain ⟨rfl, rfl⟩ := heq
      exact ha
    · intro hm
      obtain ⟨key, other, hkey, hother, hcond, hnearest⟩ := h.exists_keys_of_link hm
      exact ⟨(key, other), ⟨hcond, hnearest⟩, Prod.ext (slotOf_eq hkey) (slotOf_eq hother)⟩
  rw [linkCount_eq_ncard, ← himage, hinj.ncard_image]

end Counts

/-- The shape depends on which keys were located, not on how often or in which order. -/
theorem of_mem_iff {placed' : List K} (h : arena.Built order filter placed)
    (hmem : ∀ key, key ∈ placed' ↔ key ∈ placed) : arena.Built order filter placed' := by
  refine ⟨h.toConsistent, h.toProductive, h.safe, ?_, ?_, ?_⟩
  · intro key
    rw [h.met_iff]
    exact exists_congr fun lower => and_congr_left fun _ => (hmem lower).symm
  · intro key hkey
    exact h.located key ((hmem key).1 hkey)
  · intro key n hn hleaf
    exact (hmem key).2 (h.placed_of_leaf key n hn hleaf)

end Built

end Arena

end Downset
