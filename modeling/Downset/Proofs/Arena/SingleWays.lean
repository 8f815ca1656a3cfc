import Downset.Proofs.Arena.Links
import Downset.Proofs.Order.Safety
import Mathlib.Data.List.Nodup
import Mathlib.Data.List.Pairwise

/-!
# Single ways down

A way down from a node is the list of the nodes that it goes through behind the first. The nodes
below a node are met by single ways if no two ways from it end at the same node. Without cycles this
is so just if it is so for each node directly below, and no two of these have a node below them in
common.
-/

namespace Downset.Arena

variable {K V : Type} {arena : Arena K V} {n m lower id : NodeId} {way : List NodeId}

/-- Links lead down from the first node to the last, through the nodes of the list. -/
inductive WayDown (arena : Arena K V) : NodeId → List NodeId → NodeId → Prop
  | nil (n : NodeId) : WayDown arena n [] n
  | cons {n lower m : NodeId} {way : List NodeId} (step : lower ∈ (arena.node n).below)
      (rest : WayDown arena lower way m) : WayDown arena n (lower :: way) m

/-- No two ways down from the node end at the same node. -/
def SingleWays (arena : Arena K V) (n : NodeId) : Prop :=
  ∀ m way way', arena.WayDown n way m → arena.WayDown n way' m → way = way'

def Apart (arena : Arena K V) (n m : NodeId) : Prop :=
  ∀ lower, Reaches arena.uppers lower n → ¬ Reaches arena.uppers lower m

instance : Std.Symm arena.Apart := ⟨fun _ _ h lower hm hn => h lower hn hm⟩

theorem WayDown.concat (h : arena.WayDown n way m) (hlower : lower ∈ (arena.node m).below) :
    arena.WayDown n (way ++ [lower]) lower := by
  induction h with
  | nil n => exact .cons hlower (.nil lower)
  | cons step _ ih => exact .cons step (ih hlower)

variable (hmirror : ∀ {n m}, m ∈ (arena.node n).above ↔ n ∈ (arena.node m).below)

include hmirror

theorem exists_wayDown_iff : (∃ way, arena.WayDown n way m) ↔ Reaches arena.uppers m n := by
  constructor
  · rintro ⟨way, hway⟩
    induction hway with
    | nil n => exact .refl
    | cons step _ ih => exact ih.tail (hmirror.2 step)
  · intro hreaches
    induction hreaches using Relation.ReflTransGen.head_induction_on with
    | refl => exact ⟨[], .nil n⟩
    | head step _ ih =>
      obtain ⟨way, hway⟩ := ih
      exact ⟨_, hway.concat (hmirror.1 step)⟩

theorem reaches_iff_below : Reaches arena.uppers m id ↔
    m = id ∨ ∃ lower ∈ (arena.node id).below, Reaches arena.uppers m lower := by
  constructor
  · intro hreaches
    rcases hreaches.cases_tail with rfl | ⟨lower, hlower, hlast⟩
    · exact .inl rfl
    · exact .inr ⟨lower, hmirror.1 hlast, hlower⟩
  · rintro (rfl | ⟨lower, hlower, hreaches⟩)
    · exact .refl
    · exact hreaches.tail (hmirror.2 hlower)

theorem singleWays_iff (hacyclic : ∀ n, ¬ OnCycle arena.uppers n) :
    arena.SingleWays id ↔ (∀ lower ∈ (arena.node id).below, arena.SingleWays lower) ∧
      (arena.node id).below.toList.Pairwise arena.Apart := by
  have hback : ∀ {lower way}, lower ∈ (arena.node id).below → ¬ arena.WayDown lower way id := by
    intro lower way hlower hway
    exact hacyclic id (.tail' ((exists_wayDown_iff hmirror).1 ⟨way, hway⟩) (hmirror.2 hlower))
  constructor
  · intro h
    refine ⟨fun lower hlower m way way' hway hway' => ?_, ?_⟩
    · exact (List.cons.inj (h m _ _ (.cons hlower hway) (.cons hlower hway'))).2
    · refine (arena.node id).below.nodup.pairwise_of_forall_ne fun a ha b hb hne m hma hmb => ?_
      obtain ⟨way, hway⟩ := (exists_wayDown_iff hmirror).2 hma
      obtain ⟨way', hway'⟩ := (exists_wayDown_iff hmirror).2 hmb
      exact hne (List.cons.inj (h m _ _ (.cons ha hway) (.cons hb hway'))).1
  · rintro ⟨hsingle, happart⟩ m way way' hway hway'
    cases hway with
    | nil =>
      cases hway' with
      | nil => rfl
      | cons step rest => exact absurd rest (hback step)
    | @cons _ a _ way step rest =>
      cases hway' with
      | nil => exact absurd rest (hback step)
      | @cons _ b _ way' step' rest' =>
        have heq : a = b := Classical.byContradiction fun hne =>
          happart.forall step step' hne m ((exists_wayDown_iff hmirror).1 ⟨way, rest⟩)
            ((exists_wayDown_iff hmirror).1 ⟨way', rest'⟩)
        subst heq
        rw [hsingle a step m way way' rest rest']

omit hmirror

/-- The nodes of a list and all nodes below them are unseen, and no two ways from the list end at
the same node. -/
structure Clear (arena : Arena K V) (seen ids : List NodeId) : Prop where
  unseen : ∀ id ∈ ids, ∀ m, Reaches arena.uppers m id → m ∉ seen
  single : ∀ id ∈ ids, arena.SingleWays id
  apart : ids.Pairwise arena.Apart

section Clear

variable {seen rest : List NodeId}

theorem Clear.nil : arena.Clear seen [] :=
  ⟨by simp, by simp, .nil⟩

theorem clear_singleton : arena.Clear seen [id] ↔
    (∀ m, Reaches arena.uppers m id → m ∉ seen) ∧ arena.SingleWays id := by
  constructor
  · exact fun h => ⟨h.unseen id List.mem_cons_self, h.single id List.mem_cons_self⟩
  · rintro ⟨hunseen, hsingle⟩
    exact ⟨by simpa using hunseen, by simpa using hsingle, List.pairwise_singleton _ _⟩

theorem clear_cons : arena.Clear seen (id :: rest) ↔
    arena.Clear seen [id] ∧ arena.Clear seen rest ∧ ∀ other ∈ rest, arena.Apart id other := by
  rw [clear_singleton]
  constructor
  · rintro ⟨hunseen, hsingle, happart⟩
    obtain ⟨hunseenFirst, hunseen⟩ := List.forall_mem_cons.1 hunseen
    obtain ⟨hsingleFirst, hsingle⟩ := List.forall_mem_cons.1 hsingle
    obtain ⟨happartFirst, happart⟩ := List.pairwise_cons.1 happart
    exact ⟨⟨hunseenFirst, hsingleFirst⟩, ⟨hunseen, hsingle, happart⟩, happartFirst⟩
  · rintro ⟨⟨hunseen, hsingle⟩, hrest, happart⟩
    exact ⟨List.forall_mem_cons.2 ⟨hunseen, hrest.unseen⟩,
      List.forall_mem_cons.2 ⟨hsingle, hrest.single⟩, List.pairwise_cons.2 ⟨happart, hrest.apart⟩⟩

include hmirror

/-- Once a node is seen, what is asked of it is asked of the nodes directly below. -/
theorem clear_below_iff (hacyclic : ∀ n, ¬ OnCycle arena.uppers n) (hid : id ∉ seen) :
    arena.Clear (id :: seen) (arena.node id).below.toList ↔ arena.Clear seen [id] := by
  have hback : ∀ lower ∈ (arena.node id).below, ∀ m, Reaches arena.uppers m lower → m ≠ id := by
    rintro lower hlower m hm rfl
    exact hacyclic m (.tail' hm (hmirror.2 hlower))
  rw [clear_singleton, singleWays_iff hmirror hacyclic]
  constructor
  · rintro ⟨hunseen, hsingle, happart⟩
    refine ⟨fun m hm => ?_, hsingle, happart⟩
    rcases (reaches_iff_below hmirror).1 hm with rfl | ⟨lower, hlower, hm⟩
    · exact hid
    · exact fun hseen => hunseen lower hlower m hm (List.mem_cons_of_mem id hseen)
  · rintro ⟨hunseen, hsingle, happart⟩
    refine ⟨fun lower hlower m hm => ?_, hsingle, happart⟩
    rw [List.mem_cons, not_or]
    exact ⟨hback lower hlower m hm, hunseen m (hm.tail (hmirror.2 hlower))⟩

end Clear

end Downset.Arena
