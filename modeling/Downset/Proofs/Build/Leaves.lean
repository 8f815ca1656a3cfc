import Downset.Proofs.Arena.Growth
import Downset.Proofs.Build.Keeps

/-!
# Leaves and what is remembered

A walk makes query nodes only. A leaf is made of the key that is put at alone, and it has its
links from the beginning; and a key that was passed over is remembered only if query nodes lie
beyond it.
-/

namespace Downset

variable {K V : Type}

namespace Arena

/-- Every leaf was a leaf before. -/
def AddsNoLeaf (arena after : Arena K V) : Prop :=
  ∀ n, (after.node n).kind = .leaf → (arena.node n).kind = .leaf

variable {arena after : Arena K V}

namespace AddsNoLeaf

theorem refl (arena : Arena K V) : arena.AddsNoLeaf arena := fun _ hn => hn

theorem linkAll {lower : NodeId} {uppers : List NodeId} (h : arena.AddsNoLeaf after) :
    arena.AddsNoLeaf (after.linkAll lower uppers) := by
  intro n hn
  rw [kind_linkAll] at hn
  exact h n hn

end AddsNoLeaf

end Arena

variable [DecidableEq K]

namespace Arena

/-- Leaves have links, and what is remembered of a key is not empty. -/
structure Productive (arena : Arena K V) : Prop where
  leaf_above : ∀ n, (arena.node n).kind = .leaf → ∃ m, m ∈ (arena.node n).above
  skipped_some : ∀ key found, arena.skipped.find? key = some found → ∃ m, m ∈ found

variable {arena after : Arena K V} {key : K} {found : OrderedSet NodeId} {lower n : NodeId}
  {uppers : List NodeId}

namespace AddsNoLeaf

theorem addQuery (h : arena.AddsNoLeaf after) :
    arena.AddsNoLeaf (after.addNode key (.newQuery key)) := by
  intro n hn
  rw [node_addNode] at hn
  split at hn
  · cases hn
  · exact h n hn

theorem passOver (h : arena.AddsNoLeaf after) : arena.AddsNoLeaf (after.passOver key found) := by
  intro n hn
  unfold Arena.passOver at hn
  split at hn <;> exact h n hn

theorem keptByWalks (filter : KeyFilter K) (arena : Arena K V) :
    Build.KeptByWalks filter arena.AddsNoLeaf where
  addQuery _ _ := addQuery
  linkAll _ _ _ := linkAll
  passOver _ _ _ := passOver

end AddsNoLeaf

namespace Productive

theorem of_addsNoLeaf (h : arena.Productive) (hleaf : arena.AddsNoLeaf after)
    (habove : ∀ n m, m ∈ (arena.node n).above → m ∈ (after.node n).above)
    (hskipped : ∀ key found, after.skipped.find? key = some found →
      arena.skipped.find? key = some found ∨ ∃ m, m ∈ found) : after.Productive := by
  constructor
  · intro n hn
    obtain ⟨m, hm⟩ := h.leaf_above n (hleaf n hn)
    exact ⟨m, habove n m hm⟩
  · intro key found hfound
    rcases hskipped key found hfound with hold | hnew
    · exact h.skipped_some key found hold
    · exact hnew

theorem linkAll (h : arena.Productive) : (arena.linkAll lower uppers).Productive := by
  apply h.of_addsNoLeaf (AddsNoLeaf.refl arena).linkAll
  · intro n m hm
    exact mem_above_linkAll.2 (.inl hm)
  · intro key found hfound
    rw [skipped_linkAll] at hfound
    exact .inl hfound

theorem addQuery (h : arena.Productive) : (arena.addNode key (.newQuery key)).Productive := by
  apply h.of_addsNoLeaf (AddsNoLeaf.refl arena).addQuery
  · intro n m hm
    exact (mem_above_addNode rfl).2 hm
  · intro key found hfound
    exact .inl hfound

theorem passOver (h : arena.Productive) : (arena.passOver key found).Productive := by
  unfold Arena.passOver
  split
  · exact ⟨h.leaf_above, h.skipped_some⟩
  · next hne =>
    refine ⟨h.leaf_above, ?_⟩
    intro other more hmore
    rw [Arena.remember, Table.find?_insert] at hmore
    split at hmore
    · rw [Option.some.injEq] at hmore
      subst hmore
      exact List.isEmpty_eq_false_iff_exists_mem.1 (Bool.eq_false_iff.2 hne)
    · exact h.skipped_some other more hmore

theorem forget (h : arena.Productive) : (arena.forget key).Productive := by
  refine ⟨h.leaf_above, ?_⟩
  intro other more hmore
  rw [Arena.forget, Table.find?_erase] at hmore
  split at hmore
  · cases hmore
  · exact h.skipped_some other more hmore

/-- The leaf that is made of a key gets all its links at once. -/
theorem place (h : arena.Productive) : (arena.place key found).2.Productive := by
  unfold Arena.place
  split
  · exact ⟨h.leaf_above, h.skipped_some⟩
  · next hne =>
    have hsome : ∃ m, m ∈ found.toList :=
      List.isEmpty_eq_false_iff_exists_mem.1 (Bool.eq_false_iff.2 hne)
    constructor
    · intro n hn
      rw [kind_linkAll] at hn
      by_cases hnew : n = arena.nextId
      · obtain ⟨m, hm⟩ := hsome
        refine ⟨m, mem_above_linkAll.2 (.inr ⟨?_, hnew, hm⟩)⟩
        rw [← hnew, hn]
        decide
      · rw [node_addNode, if_neg hnew] at hn
        obtain ⟨m, hm⟩ := h.leaf_above n hn
        exact ⟨m, mem_above_linkAll.2 (.inl ((mem_above_addNode rfl).2 hm))⟩
    · intro other more hmore
      rw [skipped_linkAll] at hmore
      exact h.skipped_some other more hmore

theorem keptByLocating (filter : KeyFilter K) :
    Build.KeptByLocating filter (Productive (K := K) (V := V)) where
  addQuery _ _ := addQuery
  linkAll _ _ _ := linkAll
  passOver _ _ _ := passOver
  forget := forget
  place := place

end Productive

theorem kind_place (hn : ((arena.place key found).2.node n).kind = .leaf) :
    (arena.node n).kind = .leaf ∨ n = (arena.place key found).1 := by
  by_cases hempty : found.isEmpty = true
  · simp only [place, hempty, if_true] at hn
    exact .inl hn
  · simp only [place, hempty, Bool.false_eq_true, if_false] at hn ⊢
    rw [kind_linkAll, node_addNode] at hn
    split at hn
    · next heq => exact .inr heq
    · exact .inl hn

end Arena

namespace Build

variable {order : KeyOrder K} {filter : KeyFilter K} {key : K} {arena : Arena K V}

/-- The only leaf that locating a key makes is the node of the key. -/
theorem locate_leaf :
    (locate order filter key).Ends arena
      (fun id after => ∀ n, (after.node n).kind = .leaf → (arena.node n).kind = .leaf ∨ n = id)
      (fun _ _ => True) := by
  have hkept := Arena.AddsNoLeaf.keptByWalks filter arena
  have hstart := Arena.AddsNoLeaf.refl arena
  refine ends_locate ?_ ?_ ?_ ?_
  · intro _ _ n hn
    exact .inl hn
  · intro hslot haccepts
    refine (hkept.descend hslot haccepts hstart).mono ?_ fun _ _ _ => trivial
    intro _ after hafter n hn
    exact .inl (hafter n hn)
  · intro _ _ frontier _ n hn
    exact Arena.kind_place hn
  · intro _ _ _
    refine (hkept.gather hstart).mono ?_ fun _ _ _ => trivial
    intro found after hafter n hn
    exact (Arena.kind_place hn).imp_left (hafter n)

end Build

end Downset
