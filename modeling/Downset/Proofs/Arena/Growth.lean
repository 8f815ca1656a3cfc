import Downset.Proofs.Arena.Consistent

/-!
# Growing an arena

Each way in which a walk changes an arena keeps it consistent and takes nothing away.
-/

namespace Downset.Arena

variable {K V : Type} [DecidableEq K] {order : KeyOrder K} {filter : KeyFilter K}
  {dropped : K → K → Prop} {path : List K} {arena after : Arena K V} {key other : K}
  {n m lower upper : NodeId} {found : OrderedSet NodeId}

section Link

theorem extends_link : Extends arena (arena.link lower upper) :=
  ⟨fun hslot => hslot, fun ha => mem_above_link.2 (.inl ha), fun _ => values_link⟩

theorem WellFormed.link (h : arena.WellFormed filter) (hlower : (arena.node lower).kind ≠ .sink)
    (hupper : (arena.node upper).kind = .query) : (arena.link lower upper).WellFormed filter := by
  apply sameNodes_link.wellFormed h
  · intro n m ha
    rcases mem_above_link.1 ha with ha | ⟨_, _, rfl⟩
    · exact h.kind_above ha
    · exact hupper
  · intro n m
    rw [mem_above_link, mem_below_link, h.mirror]
    constructor
    · rintro (hb | ⟨_, hn, hm⟩)
      · exact .inl hb
      · exact .inr ⟨hupper, hm, hn⟩
    · rintro (hb | ⟨_, hm, hn⟩)
      · exact .inl hb
      · exact .inr ⟨hlower, hn, hm⟩

/-- A link from a node under construction to the node of a nearest key keeps an arena
consistent. No cycle arises, because nothing leads to the lower end. -/
theorem Consistent.link (h : Consistent order filter dropped path arena)
    (hpath : key ∈ path) (hlower : (arena.node lower).key? = some key)
    (hother : other ∉ path) (hupper : arena.slots.find? other = some upper)
    (hnearest : order.Nearest filter key other) :
    Consistent order filter dropped path (arena.link lower upper) := by
  have hkind := h.kind_of_accepts hupper hnearest.accepted
  have hkey := h.key_of_accepts hupper hnearest.accepted
  have hnone := h.no_lower hpath (h.slot_of_key hlower)
  have hne : upper ≠ lower := by
    rintro rfl
    rw [hlower, Option.some.injEq] at hkey
    exact hother (hkey ▸ hpath)
  refine ⟨h.toWellFormed.link (kind_ne_sink hlower) hkind, ?_, ?_, ?_, ?_, ?_⟩
  · intro third n hthird hslot m hm
    rcases mem_below_link.1 hm with hm | ⟨_, rfl, rfl⟩
    · exact h.no_lower hthird hslot m hm
    · rw [h.key_of_slot hslot (h.ne_sink (query_ne_sink hkind)), Option.some.injEq] at hkey
      exact hother (hkey ▸ hthird)
  · obtain ⟨rank, hrank⟩ := h.ranked
    refine ⟨fun n => if n = lower then 0 else rank n + 1, fun n m ha => ?_⟩
    have hm : m ≠ lower := by
      rintro rfl
      rcases mem_above_link.1 ha with ha | ⟨_, _, rfl⟩
      · exact hnone n (h.mirror.1 ha)
      · exact hne rfl
    change (if n = lower then 0 else rank n + 1) < if m = lower then 0 else rank m + 1
    rw [if_neg hm]
    split
    · omega
    · rcases mem_above_link.1 ha with ha | ⟨_, rfl, _⟩
      · have := hrank n m ha
        omega
      · contradiction
  · intro n m first last ha hfirst hlast
    rw [key?_link] at hfirst hlast
    rcases mem_above_link.1 ha with ha | ⟨_, rfl, rfl⟩
    · exact h.nearest ha hfirst hlast
    · rw [hlower, Option.some.injEq] at hfirst
      rw [hkey, Option.some.injEq] at hlast
      exact hfirst ▸ hlast ▸ hnearest
  · intro third found hskipped
    exact (h.remembered hskipped).extend extends_link
  · intro first n last hsafe hfirst hslot hlast
    obtain ⟨m, hm, hlinked⟩ := h.linked hsafe hfirst hslot hlast
    exact ⟨m, hm, hlinked.imp_left fun ha => mem_above_link.2 (.inl ha)⟩

theorem walked_link : Walked path arena (arena.link lower upper) :=
  ⟨extends_link, fun _ hu => fun hmet => hu (met_link.1 hmet), fun hl => kind_link ▸ hl⟩

theorem Consistent.linkAll (uppers : List NodeId)
    (h : Consistent order filter dropped path arena)
    (hpath : key ∈ path) (hlower : (arena.node lower).key? = some key)
    (huppers : ∀ upper ∈ uppers, ∃ other, arena.slots.find? other = some upper ∧ other ∉ path ∧
      order.Nearest filter key other) :
    Consistent order filter dropped path (arena.linkAll lower uppers) ∧
      Walked path arena (arena.linkAll lower uppers) := by
  induction uppers generalizing arena with
  | nil => exact ⟨h, .refl path arena⟩
  | cons upper uppers ih =>
    obtain ⟨other, hupper, hother, hnearest⟩ := huppers upper List.mem_cons_self
    obtain ⟨hafter, hwalked⟩ := ih (h.link hpath hlower hother hupper hnearest)
      (by rw [key?_link]; exact hlower) fun next hnext => huppers next (List.mem_cons_of_mem _ hnext)
    exact ⟨hafter, walked_link.trans hwalked⟩

end Link

section AddNode

variable {node : Node K V}

theorem size_addNode : (arena.addNode key node).nodes.size = arena.nodes.size + 1 := by
  simp [addNode]

theorem find?_slots_addNode :
    (arena.addNode key node).slots.find? other =
      if other = key then some arena.nextId else arena.slots.find? other :=
  Table.find?_insert _ _ _ _

theorem node_addNode_of_kind_ne_sink (hn : (arena.node n).kind ≠ .sink) :
    (arena.addNode key node).node n = arena.node n := by
  rw [node_addNode, if_neg (ne_nextId hn)]

theorem mem_above_addNode (hnode : node.above = ∅) :
    m ∈ ((arena.addNode key node).node n).above ↔ m ∈ (arena.node n).above := by
  have hempty := (arena.node n).above_eq_empty
  rw [node_addNode]
  grind [ne_nextId]

theorem mem_below_addNode (hnode : node.below = ∅) :
    m ∈ ((arena.addNode key node).node n).below ↔ m ∈ (arena.node n).below := by
  have hempty := (arena.node n).below_eq_empty
  rw [node_addNode]
  grind [ne_nextId]

theorem extends_addNode (hkey : arena.slots.find? key = none) (hvalues : node.values = ∅)
    (habove : node.above = ∅) : Extends arena (arena.addNode key node) where
  slot := by
    intro other n hslot
    rw [find?_slots_addNode, if_neg ?_]
    · exact hslot
    · rintro rfl
      simp [hkey] at hslot
  above := (mem_above_addNode habove).2
  values n := by
    have hempty := (arena.node n).values_eq_empty
    rw [node_addNode]
    grind [ne_nextId]

theorem WellFormed.addNode (h : arena.WellFormed filter) (hunmet : ¬ arena.Met key)
    (hkey : node.key? = some key) (hkind : node.kind = .query ↔ filter.accepts key = true)
    (habove : node.above = ∅) (hbelow : node.below = ∅) :
    (arena.addNode key node).WellFormed filter := by
  obtain ⟨hslot, hskipped⟩ := not_met_iff.1 hunmet
  refine ⟨?_, ?_, ?_, ?_, ?_, ?_, ?_, ?_⟩
  · rw [size_addNode]
    omega
  · rw [node_addNode, if_neg h.nextId_ne_sink.symm]
    exact h.kind_sink
  · intro n other hother
    rw [find?_slots_addNode]
    rw [node_addNode] at hother
    split at hother
    · next hn =>
      rw [hkey, Option.some.injEq] at hother
      rw [if_pos hother.symm, hn]
    · have hold := h.slot_of_key hother
      rw [if_neg ?_]
      · exact hold
      · rintro rfl
        simp [hslot] at hold
  · intro other n hother hn
    rw [find?_slots_addNode] at hother
    split at hother
    · next heq =>
      rw [Option.some.injEq] at hother
      rw [node_addNode, if_pos hother.symm, hkey, heq]
    · have hold := h.key_of_slot hother hn
      rw [node_addNode_of_kind_ne_sink (kind_ne_sink hold)]
      exact hold
  · intro other n hother
    rw [find?_slots_addNode] at hother
    split at hother
    · next heq =>
      rw [Option.some.injEq] at hother
      rw [node_addNode, if_pos hother.symm, heq]
      exact hkind
    · rw [← h.query_iff hother, node_addNode, if_neg]
      rintro rfl
      by_cases hsink : arena.nextId = .sink
      · exact h.nextId_ne_sink hsink
      · exact ne_nextId (kind_ne_sink (h.key_of_slot hother hsink)) rfl
  · intro n m ha
    have hold := h.kind_above ((mem_above_addNode habove).1 ha)
    rw [node_addNode_of_kind_ne_sink (query_ne_sink hold)]
    exact hold
  · intro n m
    rw [mem_above_addNode habove, mem_below_addNode hbelow, h.mirror]
  · intro other found hfound
    obtain ⟨hfilter, hnone⟩ := h.skipped hfound
    refine ⟨hfilter, ?_⟩
    rw [find?_slots_addNode, if_neg ?_]
    · exact hnone
    · rintro rfl
      cases hskipped.symm.trans hfound

/-- A new node is under construction: it has no links yet, and its key goes on the path. -/
theorem Consistent.addNode (node : Node K V) (h : Consistent order filter dropped path arena)
    (hunmet : ¬ arena.Met key) (hkey : node.key? = some key)
    (hkind : node.kind = .query ↔ filter.accepts key = true) (hvalues : node.values = ∅)
    (habove : node.above = ∅) (hbelow : node.below = ∅) :
    Consistent order filter dropped (key :: path) (arena.addNode key node) := by
  have hslot : arena.slots.find? key = none := (not_met_iff.1 hunmet).1
  have hextends : Extends arena (arena.addNode key node) :=
    extends_addNode hslot hvalues habove
  refine ⟨h.toWellFormed.addNode hunmet hkey hkind habove hbelow, ?_, ?_, ?_, ?_, ?_⟩
  · intro other n hother hfind m hm
    rw [mem_below_addNode hbelow] at hm
    rw [find?_slots_addNode] at hfind
    split at hfind
    · rw [Option.some.injEq] at hfind
      subst hfind
      exact ne_nextId (query_ne_sink (h.kind_above (h.mirror.2 hm))) rfl
    · next hne => exact h.no_lower ((List.mem_cons.1 hother).resolve_left hne) hfind m hm
  · obtain ⟨rank, hrank⟩ := h.ranked
    exact ⟨rank, fun n m ha => hrank n m ((mem_above_addNode habove).1 ha)⟩
  · intro n m first last ha hfirst hlast
    rw [mem_above_addNode habove] at ha
    rw [node_addNode_of_kind_ne_sink (kind_ne_sink_of_mem_above ha)] at hfirst
    rw [node_addNode_of_kind_ne_sink (query_ne_sink (h.kind_above ha))] at hlast
    exact h.nearest ha hfirst hlast
  · intro other found hfound
    exact ((h.remembered hfound).cons hslot).extend hextends
  · intro first n last hsafe hfirst hfind hlast
    rw [List.mem_cons, not_or] at hfirst
    rw [find?_slots_addNode, if_neg hfirst.1] at hfind
    obtain ⟨m, hm, hlinked⟩ := h.linked hsafe hfirst.2 hfind hlast
    exact ⟨m, hextends.slot hm, hlinked.imp_left hextends.above⟩

theorem walked_addNode (hunmet : ¬ arena.Met key) (hpath : key ∉ path) (hvalues : node.values = ∅)
    (habove : node.above = ∅) (hkind : node.kind ≠ .leaf) :
    Walked path arena (arena.addNode key node) := by
  have hslot : arena.slots.find? key = none := (not_met_iff.1 hunmet).1
  refine ⟨extends_addNode hslot hvalues habove, ?_, ?_⟩
  · intro other hother hu hmet
    rcases met_addNode.1 hmet with rfl | hmet
    · exact hpath hother
    · exact hu hmet
  · intro n hn
    rw [node_addNode] at hn
    split at hn
    · exact absurd hn hkind
    · exact hn

end AddNode

section PassOver

theorem extends_addDeadEnd (hkey : arena.slots.find? key = none) :
    Extends arena (arena.addDeadEnd key) := by
  refine ⟨fun {other n} hslot => ?_, fun ha => ha, fun _ => rfl⟩
  rw [addDeadEnd, Table.find?_insert, if_neg ?_]
  · exact hslot
  · rintro rfl
    simp [hkey] at hslot

theorem extends_remember : Extends arena (arena.remember key found) :=
  ⟨fun hslot => hslot, fun ha => ha, fun _ => rfl⟩

theorem Consistent.addDeadEnd (h : Consistent order filter dropped path arena)
    (hunmet : ¬ arena.Met key) (hkey : filter.accepts key = false)
    (hfrontier : IsFrontier order filter path arena key ∅) :
    Consistent order filter dropped path (arena.addDeadEnd key) := by
  obtain ⟨hslot, hskipped⟩ := not_met_iff.1 hunmet
  have hextends : Extends arena (arena.addDeadEnd key) := extends_addDeadEnd hslot
  have hfind : ∀ {other n}, (arena.addDeadEnd key).slots.find? other = some n →
      (other = key ∧ n = .sink) ∨ (other ≠ key ∧ arena.slots.find? other = some n) := by
    intro other n hother
    rw [Arena.addDeadEnd, Table.find?_insert] at hother
    split at hother
    · next heq => exact .inl ⟨heq, (Option.some.inj hother).symm⟩
    · next hne => exact .inr ⟨hne, hother⟩
  refine ⟨⟨h.size_pos, h.kind_sink, fun hk => hextends.slot (h.slot_of_key hk), ?_, ?_,
    h.kind_above, h.mirror, ?_⟩, ?_, h.ranked, h.nearest, ?_, ?_⟩
  · intro other n hother hn
    rcases hfind hother with ⟨_, hsink⟩ | ⟨_, hold⟩
    · exact absurd hsink hn
    · exact h.key_of_slot hold hn
  · intro other n hother
    rcases hfind hother with ⟨rfl, rfl⟩ | ⟨_, hold⟩
    · change (arena.node .sink).kind = .query ↔ _
      simp [h.kind_sink, hkey]
    · exact h.query_iff hold
  · intro other found hfound
    obtain ⟨hrejected, hnone⟩ := h.skipped hfound
    refine ⟨hrejected, ?_⟩
    cases hother : (arena.addDeadEnd key).slots.find? other with
    | none => rfl
    | some n =>
      rcases hfind hother with ⟨rfl, _⟩ | ⟨_, hold⟩
      · cases hskipped.symm.trans hfound
      · cases hnone.symm.trans hold
  · intro other n hother hslot m hm
    rcases hfind hslot with ⟨rfl, rfl⟩ | ⟨_, hold⟩
    · have hempty : (arena.node .sink).below = ∅ :=
        Node.below_eq_empty _ (by rw [h.kind_sink]; decide)
      change m ∈ (arena.node .sink).below at hm
      rw [hempty] at hm
      exact OrderedSet.not_mem_empty m hm
    · exact h.no_lower hother hold m hm
  · intro other found hfound
    exact (h.remembered hfound).extend hextends
  · intro first n last hsafe hfirst hslot hlast
    rcases hfind hslot with ⟨rfl, rfl⟩ | ⟨hne, hold⟩
    · obtain ⟨m, hm, _⟩ := hfrontier.complete hsafe last
        ((KeyOrder.frontier_iff_nearest hkey).2 hlast)
      exact absurd hm (OrderedSet.not_mem_empty m)
    · obtain ⟨m, hm, hlinked⟩ := h.linked hsafe hfirst hold hlast
      exact ⟨m, hextends.slot hm, hlinked⟩

theorem Consistent.remember (h : Consistent order filter dropped path arena)
    (hunmet : ¬ arena.Met key) (hkey : filter.accepts key = false)
    (hfrontier : IsFrontier order filter path arena key found) :
    Consistent order filter dropped path (arena.remember key found) := by
  obtain ⟨hslot, hskipped⟩ := not_met_iff.1 hunmet
  have hfind : ∀ {other more}, (arena.remember key found).skipped.find? other = some more →
      (other = key ∧ more = found) ∨ arena.skipped.find? other = some more := by
    intro other more hother
    rw [Arena.remember, Table.find?_insert] at hother
    split at hother
    · next heq => exact .inl ⟨heq, (Option.some.inj hother).symm⟩
    · exact .inr hother
  refine ⟨⟨h.size_pos, h.kind_sink, h.slot_of_key, h.key_of_slot, h.query_iff, h.kind_above,
    h.mirror, ?_⟩, h.no_lower, h.ranked, h.nearest, ?_, h.linked⟩
  · intro other more hmore
    rcases hfind hmore with ⟨rfl, _⟩ | hold
    · exact ⟨hkey, hslot⟩
    · exact h.skipped hold
  · intro other more hmore
    rcases hfind hmore with ⟨rfl, rfl⟩ | hold
    · exact hfrontier.extend extends_remember
    · exact (h.remembered hold).extend extends_remember

theorem Consistent.passOver (h : Consistent order filter dropped path arena)
    (hunmet : ¬ arena.Met key) (hkey : filter.accepts key = false)
    (hfrontier : IsFrontier order filter path arena key found) :
    Consistent order filter dropped path (arena.passOver key found) := by
  unfold Arena.passOver
  split
  · next hempty =>
    rw [OrderedSet.isEmpty_iff.1 hempty] at hfrontier
    exact h.addDeadEnd hunmet hkey hfrontier
  · exact h.remember hunmet hkey hfrontier

theorem walked_passOver (hunmet : ¬ arena.Met key) (hpath : key ∉ path) :
    Walked path arena (arena.passOver key found) := by
  have hslot : arena.slots.find? key = none := (not_met_iff.1 hunmet).1
  have hextends : Extends arena (arena.passOver key found) := by
    unfold Arena.passOver
    split
    · exact extends_addDeadEnd hslot
    · exact extends_remember
  refine ⟨hextends, ?_, ?_⟩
  · intro other hother hu hmet
    rcases met_passOver.1 hmet with rfl | hmet
    · exact hpath hother
    · exact hu hmet
  · intro n hn
    unfold Arena.passOver at hn
    split at hn <;> exact hn

end PassOver

section Finish

/-- A key leaves the path once its links are made, or when it is not safe. -/
theorem Consistent.of_cons (h : Consistent order filter dropped (key :: path) arena)
    (hkey : order.Safe key → ∀ n other, arena.slots.find? key = some n →
      order.Nearest filter key other →
        ∃ m, arena.slots.find? other = some m ∧ m ∈ (arena.node n).above) :
    Consistent order filter dropped path arena := by
  refine ⟨h.toWellFormed, fun hother => h.no_lower (List.mem_cons_of_mem _ hother), h.ranked,
    h.nearest, fun hfound => (h.remembered hfound).of_cons, ?_⟩
  intro first n last hsafe hfirst hslot hlast
  by_cases heq : first = key
  · subst heq
    obtain ⟨m, hm, ha⟩ := hkey hsafe n last hslot hlast
    exact ⟨m, hm, .inl ha⟩
  · refine h.linked hsafe ?_ hslot hlast
    rw [List.mem_cons, not_or]
    exact ⟨heq, hfirst⟩

theorem Consistent.cons (h : Consistent order filter dropped path arena)
    (hkey : arena.slots.find? key = none) :
    Consistent order filter dropped (key :: path) arena := by
  refine ⟨h.toWellFormed, ?_, h.ranked, h.nearest, fun hfound => (h.remembered hfound).cons hkey, ?_⟩
  · intro other n hother hslot
    rcases List.mem_cons.1 hother with rfl | hother
    · cases hkey.symm.trans hslot
    · exact h.no_lower hother hslot
  · intro first n last hsafe hfirst
    exact h.linked hsafe fun hmem => hfirst (List.mem_cons_of_mem _ hmem)

theorem frontier?_of_slot (hslot : arena.slots.find? key = some n) :
    arena.frontier? key =
      some (if (arena.node n).kind = .query then .singleton n else (arena.node n).above) := by
  simp only [frontier?, hslot]
  cases arena.node n <;> rfl

theorem Consistent.isFrontier (h : Consistent order filter dropped path arena) (hpath : key ∉ path)
    (hfound : arena.frontier? key = some found) :
    IsFrontier order filter path arena key found := by
  cases hslot : arena.slots.find? key with
  | none =>
    simp only [frontier?, hslot] at hfound
    exact h.remembered hfound
  | some n =>
    rw [frontier?_of_slot hslot, Option.some.injEq] at hfound
    subst hfound
    split
    · next hkind =>
      have hkey : filter.accepts key = true := (h.query_iff hslot).1 hkind
      constructor
      · intro m hm
        rw [OrderedSet.mem_singleton.1 hm]
        exact ⟨key, hslot, hpath, .here hkey⟩
      · intro _ other hother
        rw [hother.eq_of_accepts hkey]
        exact ⟨n, OrderedSet.mem_singleton.2 rfl, hslot⟩
    · next hkind =>
      have hkey : filter.accepts key = false := by
        rw [← Bool.not_eq_true, ← h.query_iff hslot]
        exact hkind
      constructor
      · intro m hm
        obtain ⟨other, hother, hm', _⟩ := h.exists_key_above hm
        have hn := h.key_of_slot hslot (h.ne_sink (kind_ne_sink_of_mem_above hm))
        refine ⟨other, hm', fun hmem => h.no_lower hmem hm' n (h.mirror.1 hm), ?_⟩
        exact (KeyOrder.frontier_iff_nearest hkey).2 (h.nearest hm hn hother)
      · intro hsafe other hother
        obtain ⟨m, hm, hlinked⟩ := h.linked hsafe hpath hslot
          ((KeyOrder.frontier_iff_nearest hkey).1 hother)
        rcases hlinked with ha | ⟨haccepts, _⟩
        · exact ⟨m, ha, hm⟩
        · simp [hkey] at haccepts

end Finish

section Place

theorem Consistent.forget (h : Consistent order filter dropped path arena) :
    Consistent order filter dropped path (arena.forget key) := by
  have hfind : ∀ {other more}, (arena.forget key).skipped.find? other = some more →
      arena.skipped.find? other = some more := by
    intro other more hmore
    rw [Arena.forget, Table.find?_erase] at hmore
    split at hmore
    · cases hmore
    · exact hmore
  refine ⟨⟨h.size_pos, h.kind_sink, h.slot_of_key, h.key_of_slot, h.query_iff, h.kind_above,
    h.mirror, fun hmore => h.skipped (hfind hmore)⟩, h.no_lower, h.ranked, h.nearest, ?_, h.linked⟩
  intro other more hmore
  exact (h.remembered (hfind hmore)).extend ⟨fun hslot => hslot, fun ha => ha, fun _ => rfl⟩

/-- A rejected key that is put at becomes a leaf below its frontier, or ends in the sink. -/
theorem Consistent.place (h : Consistent order filter dropped [] arena) (hunmet : ¬ arena.Met key)
    (hkey : filter.accepts key = false) (hfrontier : IsFrontier order filter [] arena key found) :
    Consistent order filter dropped [] (arena.place key found).2 ∧
      Extends arena (arena.place key found).2 ∧
      (arena.place key found).2.slots.find? key = some (arena.place key found).1 := by
  have hslot : arena.slots.find? key = none := (not_met_iff.1 hunmet).1
  unfold Arena.place
  split
  · next hempty =>
    rw [OrderedSet.isEmpty_iff.1 hempty] at hfrontier
    refine ⟨h.addDeadEnd hunmet hkey hfrontier, extends_addDeadEnd hslot, ?_⟩
    change (arena.slots.insert key .sink).find? key = _
    rw [Table.find?_insert, if_pos rfl]
  · have hnew := h.addNode (.newLeaf key) hunmet rfl (by simp [Node.newLeaf, Node.kind, hkey])
      rfl rfl rfl
    have hold : Extends arena (arena.addNode key (.newLeaf key)) := extends_addNode hslot rfl rfl
    have hlower : ((arena.addNode key (.newLeaf key)).node arena.nextId).key? = some key := by
      rw [node_addNode, if_pos rfl]
      rfl
    obtain ⟨hlinked, hlinks⟩ := hnew.linkAll found.toList List.mem_cons_self hlower
      fun upper hupper => by
        obtain ⟨other, hother, hpath, hf⟩ := (hfrontier.cons hslot).sound upper hupper
        exact ⟨other, hold.slot hother, hpath, (KeyOrder.frontier_iff_nearest hkey).1 hf⟩
    refine ⟨hlinked.of_cons ?_, hold.trans hlinks.toExtends, ?_⟩
    · intro hsafe n other hn hother
      rw [slots_linkAll, find?_slots_addNode, if_pos rfl, Option.some.injEq] at hn
      subst hn
      obtain ⟨m, hm, hother⟩ := hfrontier.complete hsafe other
        ((KeyOrder.frontier_iff_nearest hkey).2 hother)
      refine ⟨m, hlinks.slot (hold.slot hother), ?_⟩
      exact mem_above_linkAll.2 (.inr ⟨kind_ne_sink hlower, rfl, hm⟩)
    · rw [slots_linkAll, find?_slots_addNode, if_pos rfl]

end Place

end Downset.Arena
