import Downset.Proofs.Index.Frozen
import Downset.Proofs.Index.Shape

/-!
# Indexes for a list of keys

When an index is made for a list of keys, each of them is linked to the nearest ones above it, and
then all links are dropped together that two others replace. No way between keys is lost by this,
though the links that replace one another may be dropped as well: in an order without cycles there
are fewer keys between the ends of the links that replace a link than between its own. Nothing
that is asked later changes the query nodes or the links between them.
-/

namespace Downset

open Relation

variable {K V : Type} [DecidableEq K] {order : KeyOrder K} {keys placed : List K}
  {filter : KeyFilter K} {lower upper key : K} {arena : Arena K V} {index last : Index K V}
  {n m : NodeId}

theorem Index.accepts_keyFilter : (keyFilter keys).accepts key = true ↔ key ∈ keys :=
  decide_eq_true_iff.trans OrderedSet.mem_ofList

/-- One of the nearest keys of a list above another key of it. -/
def KeyOrder.NextIn (order : KeyOrder K) (keys : List K) (lower upper : K) : Prop :=
  lower ∈ keys ∧ order.Nearest (Index.keyFilter keys) lower upper

namespace KeyOrder

theorem NextIn.mem (h : order.NextIn keys lower upper) : upper ∈ keys :=
  Index.accepts_keyFilter.1 h.2.accepted

/-- Between keys of the list these steps lead wherever the order does. -/
theorem nextIn_chain_iff (hlower : lower ∈ keys) (hupper : upper ∈ keys) :
    ReflTransGen (order.NextIn keys) lower upper ↔ Reaches order.successors lower upper := by
  constructor
  · intro h
    induction h with
    | refl => exact .refl
    | tail _ hstep ih => exact (ih hstep.1).trans hstep.2.above.to_reflTransGen
  · intro h
    have hchain := nearest_chain_of_reaches h (Index.accepts_keyFilter.2 hupper)
    clear h
    induction hchain using ReflTransGen.head_induction_on with
    | refl => exact .refl
    | head hstep _ ih =>
      exact .head ⟨hlower, hstep⟩ (ih (Index.accepts_keyFilter.1 hstep.accepted))

end KeyOrder

namespace Arena

/-- There is a link from the node of one key to that of another. -/
def Joins (arena : Arena K V) (lower upper : K) : Prop :=
  ∃ n m, arena.slots.find? lower = some n ∧ arena.slots.find? upper = some m ∧
    m ∈ (arena.node n).above

theorem joins_iff (hn : arena.slots.find? lower = some n) (hm : arena.slots.find? upper = some m) :
    arena.Joins lower upper ↔ m ∈ (arena.node n).above := by
  simp [Joins, hn, hm]

/-- The links that are dropped are those between keys that two links join over a third key. -/
theorem Consistent.joins_dropTransitive {dropped : K → K → Prop} {path : List K}
    (h : Consistent order filter dropped path arena) :
    arena.dropTransitive.Joins lower upper ↔ arena.Joins lower upper ∧
      ¬ ∃ middle, arena.Joins lower middle ∧ arena.Joins middle upper := by
  have hslots : arena.dropTransitive.slots = arena.slots := slots_unlinkAll
  have hsplit : ∀ {n m}, arena.slots.find? lower = some n → arena.slots.find? upper = some m →
      ((∃ j ∈ (arena.node n).above, m ∈ (arena.node j).above) ↔
        ∃ middle, arena.Joins lower middle ∧ arena.Joins middle upper) := by
    intro n m hn hm
    constructor
    · rintro ⟨j, hnj, hjm⟩
      obtain ⟨middle, _, hj, _⟩ := h.exists_key_above hnj
      exact ⟨middle, (joins_iff hn hj).2 hnj, (joins_iff hj hm).2 hjm⟩
    · rintro ⟨middle, ⟨_, j, hn', hj, hnj⟩, hmiddle⟩
      obtain rfl : n = _ := Option.some.inj (hn.symm.trans hn')
      exact ⟨j, hnj, (joins_iff hj hm).1 hmiddle⟩
  constructor
  · rintro ⟨n, m, hn, hm, hlink⟩
    rw [hslots] at hn hm
    obtain ⟨hlink, hnone⟩ := h.mem_above_dropTransitive.1 hlink
    exact ⟨(joins_iff hn hm).2 hlink, fun hsome => hnone ((hsplit hn hm).2 hsome)⟩
  · rintro ⟨⟨n, m, hn, hm, hlink⟩, hnone⟩
    refine ⟨n, m, hslots ▸ hn, hslots ▸ hm, h.mem_above_dropTransitive.2 ⟨hlink, ?_⟩⟩
    exact fun hsome => hnone ((hsplit hn hm).1 hsome)

/-- Where values flow from one node to another, links join the keys of the two. -/
theorem WellFormed.joins_of_flow (h : arena.WellFormed filter) (hflow : Reaches arena.uppers n m)
    (hlower : arena.slots.find? lower = some n) (hupper : (arena.node m).key? = some upper) :
    ReflTransGen arena.Joins lower upper := by
  induction hflow using ReflTransGen.head_induction_on generalizing lower with
  | refl =>
    have hkey := h.key_of_slot hlower (h.ne_sink (kind_ne_sink hupper))
    obtain rfl : lower = upper := Option.some.inj (hkey.symm.trans hupper)
    exact .refl
  | head step _ ih =>
    obtain ⟨middle, _, hmiddle, _⟩ := h.exists_key_above step
    exact .head ((joins_iff hlower hmiddle).2 step) (ih hmiddle)

theorem WellFormed.kind_eq_query_iff (h : arena.WellFormed (Index.keyFilter keys)) :
    (arena.node n).kind = .query ↔ ∃ key ∈ keys, arena.slots.find? key = some n := by
  constructor
  · intro hn
    obtain ⟨key, hkey⟩ := exists_key (query_ne_sink hn)
    have hslot := h.slot_of_key hkey
    exact ⟨key, Index.accepts_keyFilter.1 ((h.query_iff hslot).1 hn), hslot⟩
  · rintro ⟨key, hkey, hslot⟩
    exact h.kind_of_accepts hslot (Index.accepts_keyFilter.2 hkey)

/-- An arena for the keys of a list, from which the links that two others replace were dropped. -/
structure Reduced (order : KeyOrder K) (keys : List K) (arena : Arena K V) : Prop where
  located : ∀ key ∈ keys, ∃ n, arena.slots.find? key = some n
  query_iff : ∀ n, (arena.node n).kind = .query ↔ ∃ key ∈ keys, arena.slots.find? key = some n
  queryCount_eq : arena.queryCount = keys.toFinset.card
  exists_keys : ∀ n m, m ∈ (arena.node n).above → ∃ lower ∈ keys, ∃ upper ∈ keys,
    arena.slots.find? lower = some n ∧ arena.slots.find? upper = some m
  joins_iff : ∀ lower upper, arena.Joins lower upper ↔ order.NextIn keys lower upper ∧
    ¬ ∃ middle, order.NextIn keys lower middle ∧ order.NextIn keys middle upper
  mirror : ∀ n m, m ∈ (arena.node n).above ↔ n ∈ (arena.node m).below
  acyclic : ∀ key, ¬ TransGen (order.NextIn keys) key key
  chain_iff : ∀ lower ∈ keys, ∀ upper ∈ keys,
    (ReflTransGen arena.Joins lower upper ↔ ReflTransGen (order.NextIn keys) lower upper)
  reaches_iff : ∀ lower ∈ keys, ∀ upper ∈ keys,
    (ReflTransGen arena.Joins lower upper ↔ Reaches order.successors lower upper)

namespace Built

theorem ne_leaf (h : arena.Built order filter keys)
    (hkeys : ∀ key ∈ keys, filter.accepts key = true) : (arena.node n).kind ≠ .leaf := by
  intro hleaf
  have hne : (arena.node n).kind ≠ .sink := by rw [hleaf]; decide
  obtain ⟨key, hkey⟩ := exists_key hne
  have hslot := h.slot_of_key hkey
  have hquery := h.kind_of_accepts hslot (hkeys key (h.placed_of_leaf key n hslot hleaf))
  cases hleaf.symm.trans hquery

variable (h : arena.Built order (Index.keyFilter keys) keys)

include h

/-- The keys of the list are linked to the nearest ones above. -/
theorem joins_iff : arena.Joins lower upper ↔ order.NextIn keys lower upper := by
  constructor
  · rintro ⟨n, m, hn, hm, hlink⟩
    obtain ⟨first, second, hfirst, hsecond, hmem, hnearest⟩ := h.exists_keys_of_link hlink
    have hne := h.ne_sink (kind_ne_sink_of_mem_above hlink)
    have hne' := h.ne_sink (query_ne_sink (h.kind_above hlink))
    obtain rfl : lower = first :=
      Option.some.inj ((h.key_of_slot hn hne).symm.trans (h.key_of_slot hfirst hne))
    obtain rfl : upper = second :=
      Option.some.inj ((h.key_of_slot hm hne').symm.trans (h.key_of_slot hsecond hne'))
    exact ⟨hmem.elim id fun haccepts => Index.accepts_keyFilter.1 haccepts.1, hnearest⟩
  · rintro ⟨hlower, hnearest⟩
    exact h.exists_link (.inl hlower) hnearest

theorem acyclic : ¬ TransGen (order.NextIn keys) key key := by
  intro hcycle
  obtain ⟨next, hstep, hrest⟩ := TransGen.head'_iff.1 hcycle
  obtain ⟨n, hn⟩ := h.located key hstep.1
  have hback := (KeyOrder.nextIn_chain_iff hstep.mem hstep.1).1 hrest
  exact h.safe_of_met (met_of_slot hn) key .refl (hstep.2.above.trans_left hback)

theorem joins_dropTransitive :
    arena.dropTransitive.Joins lower upper ↔ order.NextIn keys lower upper ∧
      ¬ ∃ middle, order.NextIn keys lower middle ∧ order.NextIn keys middle upper := by
  simp only [h.toConsistent.joins_dropTransitive, h.joins_iff]

theorem consistent_dropTransitive :
    Consistent order (Index.keyFilter keys) (order.Bridged (Index.keyFilter keys)) []
      arena.dropTransitive :=
  h.toConsistent.dropTransitive fun _ => h.ne_leaf fun _ => Index.accepts_keyFilter.2

theorem chain_dropTransitive (hlower : lower ∈ keys) (hupper : upper ∈ keys) :
    ReflTransGen arena.dropTransitive.Joins lower upper ↔
      ReflTransGen (order.NextIn keys) lower upper := by
  constructor
  · intro hchain
    refine ReflTransGen.mono ?_ _ _ hchain
    intro first second hjoin
    exact (h.joins_dropTransitive.1 hjoin).1
  · intro hchain
    have hafter := h.consistent_dropTransitive
    obtain ⟨n, hn⟩ := h.located lower hlower
    have hslot : arena.dropTransitive.slots.find? lower = some n := by
      rwa [dropTransitive_eq, slots_unlinkAll]
    have hreaches := (KeyOrder.nextIn_chain_iff hlower hupper).1 hchain
    have haccepts := Index.accepts_keyFilter.2 hupper
    obtain ⟨m, hm, hflow⟩ := hafter.exists_flow (fun _ _ h => h) (h.safe_of_met (met_of_slot hn))
      hslot hreaches haccepts
    exact hafter.joins_of_flow hflow hslot (hafter.key_of_accepts hm haccepts)

theorem exists_keys_dropTransitive (hlink : m ∈ (arena.dropTransitive.node n).above) :
    ∃ lower ∈ keys, ∃ upper ∈ keys, arena.dropTransitive.slots.find? lower = some n ∧
      arena.dropTransitive.slots.find? upper = some m := by
  have hafter := h.consistent_dropTransitive
  have hn : (arena.dropTransitive.node n).kind = .query := by
    cases hkind : (arena.dropTransitive.node n).kind with
    | query => rfl
    | leaf =>
      rw [dropTransitive_eq, kind_unlinkAll] at hkind
      exact absurd hkind (h.ne_leaf fun _ => Index.accepts_keyFilter.2)
    | sink => exact absurd hkind (kind_ne_sink_of_mem_above hlink)
  obtain ⟨lower, hlower, hslot⟩ := hafter.kind_eq_query_iff.1 hn
  obtain ⟨upper, hupper, hslot'⟩ := hafter.kind_eq_query_iff.1 (hafter.kind_above hlink)
  exact ⟨lower, hlower, upper, hupper, hslot, hslot'⟩

theorem queryCount_dropTransitive : arena.dropTransitive.queryCount = keys.toFinset.card := by
  have hset : {key | (Index.keyFilter keys).accepts key = true ∧ order.Upward keys key} =
      (keys.toFinset : Set K) := by
    ext key
    simp only [Set.mem_ofPred_eq, Index.accepts_keyFilter, Finset.mem_coe, List.mem_toFinset]
    exact ⟨fun hkey => hkey.1, fun hkey => ⟨hkey, KeyOrder.upward_of_mem hkey⟩⟩
  rw [← Set.ncard_coe_finset, ← hset, ← h.queryCount_eq]
  simp only [queryCount_eq_ncard, dropTransitive_eq, kind_unlinkAll]

theorem reduced : arena.dropTransitive.Reduced order keys where
  located key hkey := by
    rw [dropTransitive_eq, slots_unlinkAll]
    exact h.located key hkey
  query_iff _ := h.consistent_dropTransitive.kind_eq_query_iff
  queryCount_eq := h.queryCount_dropTransitive
  exists_keys _ _ := h.exists_keys_dropTransitive
  joins_iff _ _ := h.joins_dropTransitive
  mirror _ _ := h.consistent_dropTransitive.mirror
  acyclic _ := h.acyclic
  chain_iff _ hlower _ hupper := h.chain_dropTransitive hlower hupper
  reaches_iff lower hlower upper hupper := by
    rw [h.chain_dropTransitive hlower hupper, KeyOrder.nextIn_chain_iff hlower hupper]

end Built

end Arena

namespace Index

theorem locateAll_built (h : index.arena.Built index.order index.filter placed)
    (hall : index.locateAll keys = .ok last) :
    last.arena.Built index.order index.filter (keys ++ placed) := by
  induction keys generalizing index placed with
  | nil =>
    rw [locateAll, Except.ok.injEq] at hall
    exact hall ▸ h
  | cons key rest ih =>
    unfold locateAll at hall
    rcases index.locate_ends (Build.locate_built h) with
      ⟨id, after, hlocate, hafter⟩ | ⟨twice, after, hlocate, _⟩
    · rw [hlocate] at hall
      refine (@ih (key :: placed) { index with arena := after } hafter hall).of_mem_iff ?_
      intro other
      simp only [List.mem_append, List.mem_cons]
      tauto
    · rw [hlocate] at hall
      cases hall

variable [Quotable K]

theorem reduced_of_ofKeys (hmade : ofKeys order keys = .ok index) :
    index.arena.Reduced order keys := by
  obtain ⟨last, hall, rfl⟩ := exists_locateAll_of_ofKeys hmade
  have hbuilt := locateAll_built (Arena.built_empty order (keyFilter keys)) hall
  refine (hbuilt.of_mem_iff fun key => ?_).reduced
  rw [List.append_nil]
  exact OrderedSet.mem_ofList.symm

end Index

namespace Session

variable [Quotable K] [DecidableEq V]

theorem frozen_of_ofKeys (hmade : Index.ofKeys order keys = .ok index)
    (operations : List (Operation K V)) :
    Arena.Frozen index.filter index.arena ((start index).run operations).index.arena := by
  refine (faithful_start (.ofKeys hmade)).run_lasts Arena.Frozen.lasts (.refl ?_) operations
  intro key hkey
  exact (Index.reduced_of_ofKeys hmade).located key ((Index.accepts_of_ofKeys hmade key).1 hkey)

/-- An index that was made for a list of keys has, in the beginning, links just from each key to
the nearest ones above that no two steps to nearest ones replace, and these lead from key to key
wherever the order does. Nothing that is asked later makes or removes a query node or a link
between query nodes: there remain as many query nodes as there are keys, and each new link leaves
a leaf. -/
theorem query_links_settled (hmade : Index.ofKeys order keys = .ok index)
    (operations later : List (Operation K V)) :
    let s := (start index).run operations
    let t := s.run later
    index.arena.Reduced order keys ∧
    s.index.queryCount = keys.toFinset.card ∧
    (∀ n, (t.index.arena.node n).kind = .query ↔ (s.index.arena.node n).kind = .query) ∧
    (∀ n, (s.index.arena.node n).kind = .query →
      (t.index.arena.node n).key? = (s.index.arena.node n).key? ∧
        ∀ m, m ∈ (t.index.arena.node n).above ↔ m ∈ (s.index.arena.node n).above) ∧
    ∀ n m, m ∈ (t.index.arena.node n).above → m ∉ (s.index.arena.node n).above →
      (t.index.arena.node n).kind = .leaf := by
  intro s t
  have hreduced := Index.reduced_of_ofKeys hmade
  have hs : Arena.Frozen index.filter index.arena s.index.arena := frozen_of_ofKeys hmade operations
  have ht : Arena.Frozen index.filter index.arena t.index.arena := by
    have hrun := frozen_of_ofKeys hmade (operations ++ later)
    rwa [run_append] at hrun
  have hquery : ∀ n, (t.index.arena.node n).kind = .query ↔ (s.index.arena.node n).kind = .query :=
    fun n => (ht.query_iff n).trans (hs.query_iff n).symm
  refine ⟨hreduced, ?_, hquery, ?_, ?_⟩
  · rw [← hreduced.queryCount_eq]
    simp only [Index.queryCount, Arena.queryCount_eq_ncard, hs.query_iff]
  · intro n hn
    have hn' := (hquery n).2 hn
    refine ⟨(ht.key? n hn').trans (hs.key? n hn).symm, fun m => ?_⟩
    exact (ht.above_iff n m hn').trans (hs.above_iff n m hn).symm
  · intro n m hafter hbefore
    exact ht.leaf_of_new_link hs hafter hbefore

/-- The key between 1 and 4 that is not in the list is passed over, and since 2 lies on another
way between them no link joins the two. -/
theorem query_links_settled_diamond :
    ∃ index : Index Int Nat, Index.ofKeys .diamond [1, 2, 4] = .ok index ∧
      KeyOrder.diamond.NextIn [1, 2, 4] 1 4 ∧ ¬ index.arena.Joins 1 4 ∧
      ReflTransGen index.arena.Joins 1 4 ∧
      ((start index).run [.put 3 30, .put 1 10]).index.queryCount = 3 := by
  obtain ⟨index, hmade⟩ : ∃ index : Index Int Nat, Index.ofKeys .diamond [1, 2, 4] = .ok index :=
    Index.ofKeys_of_safe fun key _ => KeyOrder.safe_diamond key
  obtain ⟨hreduced, hcount, _⟩ := query_links_settled hmade [.put 3 30, .put 1 10] []
  refine ⟨index, hmade, ?_, ?_, ?_, hcount⟩
  · exact ⟨by decide, 3, by decide, .past rfl (by decide) (.here rfl)⟩
  · intro hjoin
    refine ((hreduced.joins_iff 1 4).1 hjoin).2 ⟨2, ?_, ?_⟩
    · exact ⟨by decide, 2, by decide, .here rfl⟩
    · exact ⟨by decide, 4, by decide, .here rfl⟩
  · refine (hreduced.reaches_iff 1 (by decide) 4 (by decide)).2 ?_
    exact .head (b := 2) (by decide) (.single (by decide))

end Session

end Downset
