import Downset.Proofs.Index.Reduced

/-!
# Links beside longer ways

When links are dropped, only those go that some two others replace. A link stays if each other way
between its keys has three steps or more. So no link is left that one more such pass would drop,
but the links that are left need not be a transitive reduction: they are one exactly if, wherever
a longer way leads past a step to a nearest key, some way of two steps does as well.
-/

namespace Downset

open Relation

variable {K V : Type} [DecidableEq K] {order : KeyOrder K} {keys : List K} {arena : Arena K V}

/-- Wherever a longer way leads past a step to a nearest key, some way of two steps does too. -/
def KeyOrder.BridgesDetours (order : KeyOrder K) (keys : List K) : Prop :=
  ∀ lower middle upper, order.NextIn keys lower upper → order.NextIn keys lower middle →
    TransGen (order.NextIn keys) middle upper →
      ∃ other, order.NextIn keys lower other ∧ order.NextIn keys other upper

namespace Arena

/-- No link joins two keys that a way of two links or more joins as well. -/
def TransitivelyReduced (arena : Arena K V) : Prop :=
  ∀ lower upper, arena.Joins lower upper →
    ¬ ∃ middle, arena.Joins lower middle ∧ TransGen arena.Joins middle upper

namespace Reduced

variable (h : arena.Reduced order keys) {lower upper : K}

include h

theorem transGen_joins (hchain : TransGen (order.NextIn keys) lower upper) :
    TransGen arena.Joins lower upper := by
  have hlower : lower ∈ keys := by
    obtain ⟨_, hstep, _⟩ := TransGen.head'_iff.1 hchain
    exact hstep.1
  have hupper : upper ∈ keys := by
    obtain ⟨_, _, hstep⟩ := TransGen.tail'_iff.1 hchain
    exact hstep.mem
  have hkept := (h.chain_iff lower hlower upper hupper).2 hchain.to_reflTransGen
  rcases reflTransGen_iff_eq_or_transGen.1 hkept with heq | hkept
  · exact absurd (heq ▸ hchain) (h.acyclic lower)
  · exact hkept

theorem nextIn_of_joins (hjoin : arena.Joins lower upper) : order.NextIn keys lower upper :=
  ((h.joins_iff lower upper).1 hjoin).1

theorem transitivelyReduced_iff : arena.TransitivelyReduced ↔ order.BridgesDetours keys := by
  constructor
  · intro hreduced lower middle upper hstep hlow hhigh
    by_contra hnone
    have hjoin := (h.joins_iff lower upper).2 ⟨hstep, hnone⟩
    obtain ⟨first, hfirst, hrest⟩ := TransGen.head'_iff.1 (h.transGen_joins (.single hlow))
    exact hreduced lower upper hjoin ⟨first, hfirst, .trans_right hrest (h.transGen_joins hhigh)⟩
  · rintro hbridges lower upper hjoin ⟨middle, hlow, hhigh⟩
    obtain ⟨hstep, hnone⟩ := (h.joins_iff lower upper).1 hjoin
    have hhigh' : TransGen (order.NextIn keys) middle upper :=
      TransGen.mono (fun _ _ hjoin => h.nextIn_of_joins hjoin) _ _ hhigh
    exact hnone (hbridges lower middle upper hstep (h.nextIn_of_joins hlow) hhigh')

end Reduced

end Arena

namespace KeyOrder

/-- Two ways lead from the lowest key to the highest, with one key between them on the one and
two on the other. -/
def pentagon : KeyOrder Int := .ofTable [(1, [2, 4]), (2, [3]), (3, [5]), (4, [5])]

theorem safe_pentagon (key : Int) : pentagon.Safe key :=
  safe_ofTable Int.toNat (by decide) key

theorem nextIn_pentagon : pentagon.NextIn [1, 2, 3, 5] 1 5 :=
  ⟨by decide, 4, by decide, .past rfl (by decide) (.here rfl)⟩

theorem detour_pentagon : TransGen (pentagon.NextIn [1, 2, 3, 5]) 2 5 := by
  have htwo : pentagon.NextIn [1, 2, 3, 5] 2 3 := ⟨by decide, 3, by decide, .here rfl⟩
  have hthree : pentagon.NextIn [1, 2, 3, 5] 3 5 := ⟨by decide, 5, by decide, .here rfl⟩
  exact .tail (.single htwo) hthree

/-- Once the single key on the shorter way is passed over, no way has two steps. -/
theorem no_bridge_pentagon :
    ¬ ∃ middle, pentagon.NextIn [1, 2, 3, 5] 1 middle ∧ pentagon.NextIn [1, 2, 3, 5] middle 5 := by
  rintro ⟨middle, hlow, hhigh⟩
  have hmiddle : middle = 2 ∨ middle = 5 := by
    obtain ⟨next, hnext, hfrontier⟩ := hlow.2
    rw [show pentagon.successors 1 = [2, 4] by decide, List.mem_pair] at hnext
    rcases hnext with rfl | rfl
    · exact .inl (hfrontier.eq_of_accepts rfl)
    · rw [frontier_iff_nearest rfl, nearest_iff_mem (by decide)] at hfrontier
      exact .inr (List.mem_singleton.1 hfrontier)
  rcases hmiddle with rfl | rfl
  · exact absurd ((nearest_iff_mem (by decide)).1 hhigh.2) (by decide)
  · exact absurd ((nearest_iff_mem (by decide)).1 hhigh.2) (by decide)

theorem not_bridgesDetours_pentagon : ¬ pentagon.BridgesDetours [1, 2, 3, 5] := by
  intro hbridges
  have hone : pentagon.NextIn [1, 2, 3, 5] 1 2 := ⟨by decide, 2, by decide, .here rfl⟩
  exact no_bridge_pentagon (hbridges 1 2 5 nextIn_pentagon hone detour_pentagon)

end KeyOrder

namespace Index

variable [Quotable K] {index : Index K V}

/-- An index that was made for a list of keys has a link for each step to a nearest key past which
no two steps lead, and no others: a link beside longer ways only stays. No two links lead past a
third, and the links are a transitive reduction exactly if two steps lead past a step to a nearest
key wherever a longer way does. -/
theorem short_detours_bridged (hmade : ofKeys order keys = .ok index) :
    (∀ lower upper, index.arena.Joins lower upper ↔
      order.NextIn keys lower upper ∧
        ¬ ∃ middle, order.NextIn keys lower middle ∧ order.NextIn keys middle upper) ∧
    (∀ lower upper, index.arena.Joins lower upper →
      ¬ ∃ middle, index.arena.Joins lower middle ∧ index.arena.Joins middle upper) ∧
    (index.arena.TransitivelyReduced ↔ order.BridgesDetours keys) := by
  have hreduced := reduced_of_ofKeys hmade
  refine ⟨hreduced.joins_iff, ?_, hreduced.transitivelyReduced_iff⟩
  rintro lower upper hjoin ⟨middle, hlow, hhigh⟩
  obtain ⟨_, hnone⟩ := (hreduced.joins_iff lower upper).1 hjoin
  exact hnone ⟨middle, hreduced.nextIn_of_joins hlow, hreduced.nextIn_of_joins hhigh⟩

theorem short_detours_bridged_pentagon :
    (∃ index : Index Int Nat, ofKeys .diamond [1, 2, 4] = .ok index ∧
      KeyOrder.diamond.NextIn [1, 2, 4] 1 4 ∧ ¬ index.arena.Joins 1 4) ∧
    ∃ index : Index Int Nat, ofKeys .pentagon [1, 2, 3, 5] = .ok index ∧
      TransGen (KeyOrder.pentagon.NextIn [1, 2, 3, 5]) 2 5 ∧ index.arena.Joins 1 5 := by
  constructor
  · obtain ⟨index, hmade⟩ : ∃ index : Index Int Nat, ofKeys .diamond [1, 2, 4] = .ok index :=
      ofKeys_of_safe fun key _ => KeyOrder.safe_diamond key
    have hstep : KeyOrder.diamond.NextIn [1, 2, 4] 1 4 :=
      ⟨by decide, 3, by decide, .past rfl (by decide) (.here rfl)⟩
    have hlow : KeyOrder.diamond.NextIn [1, 2, 4] 1 2 := ⟨by decide, 2, by decide, .here rfl⟩
    have hhigh : KeyOrder.diamond.NextIn [1, 2, 4] 2 4 := ⟨by decide, 4, by decide, .here rfl⟩
    refine ⟨index, hmade, hstep, fun hjoin => ?_⟩
    exact (((short_detours_bridged hmade).1 1 4).1 hjoin).2 ⟨2, hlow, hhigh⟩
  · obtain ⟨index, hmade⟩ : ∃ index : Index Int Nat, ofKeys .pentagon [1, 2, 3, 5] = .ok index :=
      ofKeys_of_safe fun key _ => KeyOrder.safe_pentagon key
    refine ⟨index, hmade, KeyOrder.detour_pentagon, ?_⟩
    exact ((short_detours_bridged hmade).1 1 5).2
      ⟨KeyOrder.nextIn_pentagon, KeyOrder.no_bridge_pentagon⟩

end Index

/-- A link stays beside a way of three links. -/
theorem Index.long_detour_stays :
    ∃ index : Index Int Nat, ofKeys .pentagon [1, 2, 3, 5] = .ok index ∧
      ¬ index.arena.TransitivelyReduced := by
  obtain ⟨index, hmade⟩ : ∃ index : Index Int Nat, ofKeys .pentagon [1, 2, 3, 5] = .ok index :=
    ofKeys_of_safe fun key _ => KeyOrder.safe_pentagon key
  refine ⟨index, hmade, ?_⟩
  rw [(reduced_of_ofKeys hmade).transitivelyReduced_iff]
  exact KeyOrder.not_bridgesDetours_pentagon

end Downset
