import Downset.Proofs.Arena.Growth
import Downset.Proofs.Build.Keeps

/-!
# What is left alone while an arena grows

While walks build from an arena, its nodes keep their slots, keys, links upwards and values, and
what is known of keys is kept. Only the links downwards of its query nodes change: nodes made since
are added behind those that were there. For each link made on the way has a new node at its lower
end.
-/

namespace Downset

namespace Node

variable {K V : Type} (node : Node K V)

theorem below_mapBelow_insert (lower : NodeId) :
    (node.mapBelow fun s => s.insert lower).below.toList = node.below.toList ∨
      (node.mapBelow fun s => s.insert lower).below.toList = node.below.toList ++ [lower] := by
  rw [below_mapBelow]
  split
  · by_cases hlower : lower ∈ node.below
    · exact .inl (by rw [OrderedSet.insert_of_mem hlower])
    · exact .inr (OrderedSet.toList_insert_of_not_mem hlower)
  · next hkind =>
    rw [node.below_eq_empty hkind]
    exact .inl rfl

end Node

namespace Arena

variable {K V : Type} [DecidableEq K]

/-- What has happened to an arena since it was like `base`. -/
structure Grown (base arena : Arena K V) : Prop where
  size : base.nodes.size ≤ arena.nodes.size
  kind : ∀ n, n.index < base.nodes.size → (arena.node n).kind = (base.node n).kind
  key? : ∀ n, n.index < base.nodes.size → (arena.node n).key? = (base.node n).key?
  above : ∀ n, n.index < base.nodes.size → (arena.node n).above = (base.node n).above
  below : ∀ n, n.index < base.nodes.size → ∃ more,
    (arena.node n).below.toList = (base.node n).below.toList ++ more ∧
      ∀ m ∈ more, base.nodes.size ≤ m.index
  values : ∀ n, (arena.node n).values = (base.node n).values
  slots : ∀ {key n}, base.slots.find? key = some n → arena.slots.find? key = some n
  skipped : ∀ {key found}, base.skipped.find? key = some found →
    arena.skipped.find? key = some found

namespace Grown

variable {base arena : Arena K V} {key : K} {lower upper : NodeId} {uppers : List NodeId}
  {found : OrderedSet NodeId}

theorem refl (arena : Arena K V) : Grown arena arena :=
  ⟨Nat.le_refl _, fun _ _ => rfl, fun _ _ => rfl, fun _ _ => rfl,
    fun _ _ => ⟨[], by simp, by simp⟩, fun _ => rfl, fun h => h, fun h => h⟩

theorem of_nodes {after : Arena K V} (h : Grown base arena) (hnodes : after.nodes = arena.nodes)
    (hslots : ∀ {key n}, base.slots.find? key = some n → after.slots.find? key = some n)
    (hskipped : ∀ {key found}, base.skipped.find? key = some found →
      after.skipped.find? key = some found) : Grown base after := by
  have hnode : ∀ n, after.node n = arena.node n := fun n => by simp only [node, hnodes]
  refine ⟨hnodes ▸ h.size, ?_, ?_, ?_, ?_, ?_, hslots, hskipped⟩ <;> simp only [hnode]
  · exact h.kind
  · exact h.key?
  · exact h.above
  · exact h.below
  · exact h.values

theorem find?_slots_eq_none (h : Grown base arena) (hkey : arena.slots.find? key = none) :
    base.slots.find? key = none := by
  refine Option.eq_none_iff_forall_ne_some.2 fun n hn => ?_
  cases hkey.symm.trans (h.slots hn)

theorem find?_skipped_eq_none (h : Grown base arena) (hkey : arena.skipped.find? key = none) :
    base.skipped.find? key = none := by
  refine Option.eq_none_iff_forall_ne_some.2 fun found hfound => ?_
  cases hkey.symm.trans (h.skipped hfound)

theorem addNode {node : Node K V} (h : Grown base arena) (hslot : base.slots.find? key = none)
    (hvalues : node.values = ∅) : Grown base (arena.addNode key node) := by
  have hold : ∀ n, n.index < base.nodes.size → (arena.addNode key node).node n = arena.node n := by
    intro n hn
    rw [node_addNode, if_neg]
    rintro rfl
    exact absurd (Nat.lt_of_lt_of_le hn h.size) (Nat.lt_irrefl _)
  refine ⟨?_, ?_, ?_, ?_, ?_, ?_, ?_, h.skipped⟩
  · rw [size_addNode]
    exact Nat.le_succ_of_le h.size
  · exact fun n hn => hold n hn ▸ h.kind n hn
  · exact fun n hn => hold n hn ▸ h.key? n hn
  · exact fun n hn => hold n hn ▸ h.above n hn
  · exact fun n hn => hold n hn ▸ h.below n hn
  · intro n
    rw [node_addNode, ← h.values n]
    split
    · next hn =>
      have hnone : (arena.node n).kind = .sink :=
        Classical.byContradiction fun hkind => ne_nextId hkind hn
      rw [hvalues, (arena.node n).values_eq_empty hnone]
    · rfl
  · intro other n hn
    rw [find?_slots_addNode, if_neg]
    · exact h.slots hn
    · rintro rfl
      cases hslot.symm.trans hn

/-- A link from a new node changes the links downwards of its upper end only. -/
theorem link (h : Grown base arena) (hlower : base.nodes.size ≤ lower.index) :
    Grown base (arena.link lower upper) := by
  have hne : ∀ n, n.index < base.nodes.size → n ≠ lower := by
    rintro n hn rfl
    exact absurd hn (Nat.not_lt.2 hlower)
  refine ⟨?_, ?_, ?_, ?_, ?_, ?_, h.slots, h.skipped⟩
  · rw [size_link]
    exact h.size
  · exact fun n hn => kind_link.trans (h.kind n hn)
  · exact fun n hn => key?_link.trans (h.key? n hn)
  · intro n hn
    rw [node_link, if_neg (hne n hn), ← h.above n hn]
    split
    · exact Node.above_mapBelow _ _
    · rfl
  · intro n hn
    obtain ⟨more, hmore, hnew⟩ := h.below n hn
    rw [node_link, if_neg (hne n hn)]
    split
    · rcases (arena.node n).below_mapBelow_insert lower with hsame | hlast
      · exact ⟨more, hsame.trans hmore, hnew⟩
      · refine ⟨more ++ [lower], by rw [hlast, hmore, List.append_assoc], fun m hm => ?_⟩
        rcases List.mem_append.1 hm with hm | hm
        · exact hnew m hm
        · exact List.mem_singleton.1 hm ▸ hlower
    · exact ⟨more, hmore, hnew⟩
  · exact fun n => values_link.trans (h.values n)

theorem linkAll (h : Grown base arena) (hlower : base.nodes.size ≤ lower.index) :
    Grown base (arena.linkAll lower uppers) := by
  induction uppers generalizing arena with
  | nil => exact h
  | cons upper uppers ih => exact ih (h.link hlower)

theorem addDeadEnd (h : Grown base arena) (hslot : base.slots.find? key = none) :
    Grown base (arena.addDeadEnd key) := by
  refine h.of_nodes rfl ?_ h.skipped
  intro other n hn
  simp only [Arena.addDeadEnd, Table.find?_insert]
  rw [if_neg]
  · exact h.slots hn
  · rintro rfl
    cases hslot.symm.trans hn

theorem passOver (h : Grown base arena) (hslot : base.slots.find? key = none)
    (hskipped : base.skipped.find? key = none) : Grown base (arena.passOver key found) := by
  unfold Arena.passOver
  split
  · exact h.addDeadEnd hslot
  · refine h.of_nodes rfl h.slots ?_
    intro other more hmore
    simp only [Arena.remember, Table.find?_insert]
    rw [if_neg]
    · exact h.skipped hmore
    · rintro rfl
      cases hskipped.symm.trans hmore

theorem place (h : Grown base arena) (hslot : base.slots.find? key = none) :
    Grown base (arena.place key found).2 := by
  unfold Arena.place
  split
  · exact h.addDeadEnd hslot
  · exact (h.addNode hslot rfl).linkAll h.size

theorem keptByWalks (filter : KeyFilter K) (base : Arena K V) :
    Build.KeptByWalks filter base.Grown where
  addQuery hslot _ h := h.addNode (h.find?_slots_eq_none hslot) rfl
  linkAll _ _ hstart h := h.linkAll hstart.size
  passOver hunmet _ hstart h := by
    obtain ⟨hslot, hskipped⟩ := frontier?_eq_none_iff.1 hunmet
    exact h.passOver (hstart.find?_slots_eq_none hslot) (hstart.find?_skipped_eq_none hskipped)

theorem below_lt (h : Grown base arena)
    (hmirror : ∀ {n m}, m ∈ (arena.node n).above ↔ n ∈ (arena.node m).below) {n : NodeId}
    (hn : n.index < base.nodes.size) : ∃ more,
      (arena.node n).below.toList = (base.node n).below.toList ++ more ∧
        ∀ m ∈ more, base.nodes.size ≤ m.index ∧ m.index < arena.nodes.size := by
  obtain ⟨more, hmore, hnew⟩ := h.below n hn
  refine ⟨more, hmore, fun m hm => ⟨hnew m hm, ?_⟩⟩
  have hbelow : m ∈ (arena.node n).below := by
    rw [OrderedSet.mem_def, hmore]
    exact List.mem_append_right _ hm
  exact index_lt_of_kind_ne_sink (kind_ne_sink_of_mem_above (hmirror.2 hbelow))

theorem forget (h : Grown base arena) (key : K) : Grown (base.forget key) arena := by
  refine ⟨h.size, h.kind, h.key?, h.above, h.below, h.values, h.slots, ?_⟩
  intro other found hfound
  rw [Arena.forget, Table.find?_erase] at hfound
  split at hfound
  · cases hfound
  · exact h.skipped hfound

end Grown

/-- A leaf is linked to just the nodes that it is placed below, in their order. -/
theorem leaf_of_place {arena : Arena K V} {key : K} {found : OrderedSet NodeId}
    (hfound : ∃ m, m ∈ found) :
    (arena.place key found).2.slots.find? key = some (arena.place key found).1 ∧
      ((arena.place key found).2.node (arena.place key found).1).kind = .leaf ∧
      ((arena.place key found).2.node (arena.place key found).1).above = found := by
  have hempty : ¬ found.isEmpty = true := by
    rw [OrderedSet.isEmpty_iff]
    rintro rfl
    obtain ⟨m, hm⟩ := hfound
    exact OrderedSet.not_mem_empty m hm
  have hnew : (arena.addNode key (.newLeaf key)).node arena.nextId = .newLeaf key := by
    rw [node_addNode, if_pos rfl]
  have hunion : (∅ : OrderedSet NodeId).insertMany found.toList = found := by
    rw [← OrderedSet.union_eq_insertMany]
    exact OrderedSet.ext (by simp)
  unfold Arena.place
  rw [if_neg hempty]
  refine ⟨?_, ?_, ?_⟩
  · rw [slots_linkAll, find?_slots_addNode, if_pos rfl]
  · rw [kind_linkAll, hnew]
    rfl
  · rw [above_linkAll_self (by rw [hnew]; exact NodeKind.noConfusion), hnew]
    exact hunion

/-- What has happened to an arena when a key was located in it. If something was remembered of the
key, then the key may have become a leaf below just that; nothing else was forgotten. -/
structure GrownAt (arena : Arena K V) (key : K) (id : NodeId) (after : Arena K V) : Prop
    extends Grown (arena.forget key) after where
  remembered : ∀ found, arena.skipped.find? key = some found → (∃ m, m ∈ found) →
    after.skipped.find? key = some found ∨
      after.slots.find? key = some id ∧ (after.node id).kind = .leaf ∧ (after.node id).above = found

theorem Grown.at {arena after : Arena K V} (h : Grown arena after) (key : K) (id : NodeId) :
    arena.GrownAt key id after :=
  ⟨h.forget key, fun _ hfound _ => .inl (h.skipped hfound)⟩

end Arena

namespace Build

open Arena

variable {K V : Type} [DecidableEq K] {order : KeyOrder K} {filter : KeyFilter K}
  {arena : Arena K V} {key : K}

/-- Locating a key leaves the arena alone but for what it adds, also when it stops at a cycle. -/
theorem locate_grown (arena : Arena K V) (key : K) :
    (locate order filter key).Ends arena (arena.GrownAt key) (fun _ after => Grown arena after) := by
  have hkept := Grown.keptByWalks filter arena
  refine ends_locate ?known ?query ?remembered ?pass
  case known => exact fun id _ => (Grown.refl arena).at key id
  case query =>
    intro hslot haccepts
    exact (hkept.descend hslot haccepts (.refl arena)).mono (fun _ _ h => h.at key _) fun _ _ h => h
  case remembered =>
    intro hslot _ frontier hfrontier
    refine ⟨(Grown.refl _).place hslot, fun found hfound hmem => .inr ?_⟩
    rw [hfrontier, Option.some.injEq] at hfound
    subst hfound
    exact leaf_of_place hmem
  case pass =>
    intro hslot _ _
    exact (hkept.gather (.refl arena)).mono (fun _ _ h => (h.place hslot).at key _) fun _ _ h => h

end Build

end Downset
