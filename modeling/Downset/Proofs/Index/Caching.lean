import Downset.Proofs.Arena.Exhaustive
import Downset.Proofs.Index.Faithful

/-!
# What a read caches

Right after an index was made readable none of what is stored may be used again. The next read of a
query node then computes it anew, and everything below it once. What it stores may be used again at
the node that was read just if no two ways lead down from there to the same node.
-/

namespace Downset

variable {K V : Type} [DecidableEq K] {order : KeyOrder K} {index : Index K V} {key : K}
  {n : NodeId}

namespace Index

def Stale (index : Index K V) : Prop :=
  ∀ n cache, index.caches.find? n = some cache → cache.isFresh = false

variable [DecidableEq V]

theorem caches_get (hphase : index.phase = .readable) (hslot : index.arena.slots.find? key = some n)
    (hkind : (index.arena.node n).kind = .query) :
    (index.get key).2.caches = (index.arena.aggregate n (.start index.caches)).caches := by
  unfold get Phase.require
  rw [if_pos hphase, hslot]
  simp only [hkind, if_true]

end Index

namespace Session

variable [Quotable K] [DecidableEq V]

/-- Nothing may be used again when an index is made readable after it was written. While that is so,
a read of a query node computes once each query node that lies below it, itself included, and marks
the node as fresh if and only if no two ways down from it end at the same node. -/
theorem get_of_stale (hindex : index.Initial order) (operations : List (Operation K V)) :
    let s := (start index).run operations
    let arena := s.index.arena
    (s.index.phase = .writable → s.index.makeReadable.Stale) ∧
    (s.index.phase = .readable → s.index.Stale → ∀ key n, arena.slots.find? key = some n →
      (arena.node n).kind = .query →
        let sweep := arena.aggregate n (.start s.index.caches)
        (s.index.get key).2.caches = sweep.caches ∧
        (∃ cache, (s.index.get key).2.caches.find? n = some cache ∧
          (cache.isFresh = true ↔ arena.SingleWays n)) ∧
        sweep.stored.Nodup ∧ ∀ m, m ∈ sweep.stored ↔
          (arena.node m).kind = .query ∧ ∃ way, arena.WayDown n way m) := by
  intro s arena
  have hs : s.Faithful order index.filter := (faithful_start hindex).run operations
  constructor
  · intro hphase n cache hcache
    have hnone : s.index.makeReadable.caches = ∅ := hs.uncached hphase
    rw [hnone] at hcache
    cases hcache
  · intro hphase hstale key n hslot hkind sweep
    have hcaches := Index.caches_get hphase hslot hkind
    obtain ⟨hcache, hnodup, hstored⟩ := Arena.aggregate_blank hs.consistent.mirror
      (fun _ => hs.consistent.not_onCycle) hkind hstale
    refine ⟨hcaches, hcaches ▸ hcache, hnodup, fun m => ?_⟩
    rw [hstored, Arena.exists_wayDown_iff hs.consistent.mirror]

theorem get_of_stale_diamond :
    let index : Index Int Nat := .ofPredicate KeyOrder.diamond fun _ => true
    let s := (start index).run [.put 1 10, .makeReadable]
    index.Initial KeyOrder.diamond ∧ s.index.Stale ∧ ∃ n, s.index.arena.slots.find? 4 = some n ∧
      ∃ cache, (s.index.get 4).2.caches.find? n = some cache ∧ cache.isFresh = false := by
  intro index s
  have hindex : index.Initial KeyOrder.diamond := .ofPredicate fun _ => true
  have hs : s.Faithful KeyOrder.diamond index.filter :=
    (faithful_start hindex).run [.put 1 10, .makeReadable]
  obtain ⟨hheld, _, hwritable⟩ := (faithful_start hindex).run_puts hindex.phase_eq [(1, 10)]
    fun entry _ => KeyOrder.safe_diamond entry.1
  have hstale : s.index.Stale := (get_of_stale hindex [.put 1 10]).1 hwritable
  have hmem : (1, 10) ∈ s.held := by
    change _ ∈ ((start index).run (Operation.puts [(1, 10)])).held
    rw [hheld]
    exact List.mem_cons_self
  obtain ⟨bottom, hbottom⟩ := hs.holds.located hmem
  have hdetour : ∀ lower ∈ [1, 2, 3], ∀ upper ∈ KeyOrder.diamond.successors lower,
      ∀ middle ∈ KeyOrder.diamond.successors lower, upper ∉ KeyOrder.diamond.successors middle := by
    decide
  have hlink : ∀ {lower upper n}, lower ∈ [1, 2, 3] → upper ∈ KeyOrder.diamond.successors lower →
      s.index.arena.slots.find? lower = some n →
        ∃ m, s.index.arena.slots.find? upper = some m ∧ n ∈ (s.index.arena.node m).below := by
    intro lower upper n hlower hupper hslot
    have hnearest : ∀ {key other}, KeyOrder.diamond.Nearest index.filter key other ↔
        other ∈ KeyOrder.diamond.successors key := KeyOrder.nearest_iff_mem fun _ _ => rfl
    obtain ⟨m, hm, hlinked⟩ := hs.consistent.linked (KeyOrder.safe_diamond lower) List.not_mem_nil
      hslot (hnearest.2 hupper)
    refine ⟨m, hm, hs.consistent.mirror.1 (hlinked.resolve_right ?_)⟩
    rintro ⟨_, middle, hlow, hhigh⟩
    exact hdetour lower hlower upper hupper middle (hnearest.1 hlow) (hnearest.1 hhigh)
  obtain ⟨left, hleft, hbottomLeft⟩ := @hlink 1 2 bottom (by decide) (by decide) hbottom
  obtain ⟨right, hright, hbottomRight⟩ := @hlink 1 3 bottom (by decide) (by decide) hbottom
  obtain ⟨top, htop, hleftTop⟩ := @hlink 2 4 left (by decide) (by decide) hleft
  obtain ⟨top', htop', hrightTop⟩ := @hlink 3 4 right (by decide) (by decide) hright
  have hsame : top' = top := Option.some.inj (htop'.symm.trans htop)
  subst hsame
  have hne : left ≠ right := by
    rintro rfl
    have htwo := hs.consistent.key_of_accepts hleft rfl
    have hthree := hs.consistent.key_of_accepts hright rfl
    exact absurd (Option.some.inj (htwo.symm.trans hthree)) (by decide)
  obtain ⟨_, ⟨cache, hcache, hfresh⟩, _⟩ :=
    (get_of_stale hindex [.put 1 10, .makeReadable]).2 rfl hstale 4 top' htop
      (hs.consistent.kind_of_accepts htop rfl)
  refine ⟨hindex, hstale, top', htop, cache, hcache, Bool.eq_false_iff.2 fun hisFresh => hne ?_⟩
  have hways := hfresh.1 hisFresh bottom [left, bottom] [right, bottom]
    (.cons hleftTop (.cons hbottomLeft (.nil bottom)))
    (.cons hrightTop (.cons hbottomRight (.nil bottom)))
  exact (List.cons.inj hways).1

end Session

end Downset
