import Downset.Proofs.Arena.Growth

/-!
# Which keys a walk meets

A walk that answers has met every key at or above the one where it began, or found it met
before, and no walk meets other keys, not even one that is given up. So when no walk was given up,
the keys met are those at or above some key that was located.
-/

namespace Downset

variable {K V : Type} [DecidableEq K]

namespace Arena

/-- The keys met so far have their successors met too, except for those on the path. -/
def Closed (order : KeyOrder K) (path : List K) (arena : Arena K V) : Prop :=
  ∀ key, arena.Met key → key ∈ path ∨ ∀ next ∈ order.successors key, arena.Met next

/-- The keys that were met since then are at or above a key. -/
def MeetsAbove (order : KeyOrder K) (arena : Arena K V) (key : K) (after : Arena K V) : Prop :=
  ∀ other, after.Met other → arena.Met other ∨ Reaches order.successors key other

/-- What a walk from a key adds to the keys met: some at or above that key, and of any key that
is not on the path the successors as well. -/
structure Discovers (order : KeyOrder K) (path : List K) (arena : Arena K V) (key : K)
    (after : Arena K V) : Prop where
  closed : after.Closed order path
  kept : ∀ other, arena.Met other → after.Met other
  reached : arena.MeetsAbove order key after

variable {order : KeyOrder K} {filter : KeyFilter K} {path : List K} {key other : K}
  {arena after : Arena K V}

theorem MeetsAbove.refl (key : K) (arena : Arena K V) : arena.MeetsAbove order key arena :=
  fun _ hmet => .inl hmet

theorem MeetsAbove.trans {middle : Arena K V} {next : K} (h : arena.MeetsAbove order key middle)
    (h' : middle.MeetsAbove order next after) (hnext : next ∈ order.successors key) :
    arena.MeetsAbove order key after := by
  intro other hother
  rcases h' other hother with hmiddle | hreaches
  · exact h other hmiddle
  · exact .inr (.head hnext hreaches)

theorem MeetsAbove.of_addNode {node : Node K V}
    (h : (arena.addNode key node).MeetsAbove order key after) : arena.MeetsAbove order key after := by
  intro other hother
  rcases h other hother with hnew | hreaches
  · rcases met_addNode.1 hnew with rfl | hold
    · exact .inr .refl
    · exact .inl hold
  · exact .inr hreaches

theorem Closed.cons (h : arena.Closed order path) : arena.Closed order (key :: path) := by
  intro other hmet
  exact (h other hmet).imp_left fun hpath => List.mem_cons_of_mem key hpath

theorem Closed.of_met_iff (h : arena.Closed order path)
    (hmet : ∀ other, after.Met other ↔ arena.Met other) : after.Closed order path := by
  intro other hother
  refine (h other ((hmet other).1 hother)).imp_right ?_
  intro hall next hnext
  exact (hmet next).2 (hall next hnext)

theorem Closed.finish (h : arena.Closed order (key :: path))
    (hkey : ∀ next ∈ order.successors key, arena.Met next)
    (hmet : ∀ other, after.Met other ↔ other = key ∨ arena.Met other) : after.Closed order path := by
  have hkept : ∀ other, arena.Met other → after.Met other := fun other ho => (hmet other).2 (.inr ho)
  intro other hother
  by_cases heq : other = key
  · subst heq
    exact .inr fun next hnext => hkept next (hkey next hnext)
  · have hold : arena.Met other := ((hmet other).1 hother).resolve_left heq
    rcases h other hold with hpath | hall
    · exact .inl ((List.mem_cons.1 hpath).resolve_left heq)
    · exact .inr fun next hnext => hkept next (hall next hnext)

/-- What a walk from a key has discovered when the key is put on the path before and taken off
it afterwards. -/
theorem Discovers.finish {before middle : Arena K V}
    (h : before.Discovers order (key :: path) key middle)
    (hall : ∀ next ∈ order.successors key, middle.Met next)
    (hkept : ∀ other, arena.Met other → before.Met other)
    (hback : ∀ other, before.Met other → other = key ∨ arena.Met other)
    (hmet : ∀ other, after.Met other ↔ other = key ∨ middle.Met other) :
    arena.Discovers order path key after ∧ after.Met key := by
  refine ⟨⟨h.closed.finish hall hmet, ?_, ?_⟩, (hmet key).2 (.inl rfl)⟩
  · intro other hother
    exact (hmet other).2 (.inr (h.kept other (hkept other hother)))
  · intro other hother
    rcases (hmet other).1 hother with rfl | hmiddle
    · exact .inr .refl
    · rcases h.reached other hmiddle with hbefore | hreaches
      · rcases hback other hbefore with rfl | hold
        · exact .inr .refl
        · exact .inl hold
      · exact .inr hreaches

/-- Among keys that are closed under steps, whatever lies above a key that was met was met. -/
theorem Closed.met_of_reaches (h : arena.Closed order []) (hkey : arena.Met key)
    (hreaches : Reaches order.successors key other) : arena.Met other := by
  apply Reaches.mem_of_closed _ hreaches hkey
  intro lower hlower next hnext
  exact (h lower hlower).resolve_left List.not_mem_nil next hnext

end Arena

namespace Build

variable {order : KeyOrder K} {filter : KeyFilter K} {path : List K} {key : K} {arena : Arena K V}
  {walk : K → Build K V (OrderedSet NodeId)} {stuck : K → Arena K V → Prop}

open Arena

/-- The loops over the successors of a key meet what the walks from them meet. -/
theorem loops_discover
    (hwalk : ∀ next ∈ order.successors key, ∀ arena : Arena K V,
      arena.Closed order (key :: path) → (walk next).Ends arena
        (fun _ after => arena.Discovers order (key :: path) next after ∧ after.Met next)
        fun _ after => arena.MeetsAbove order next after)
    (h : arena.Closed order (key :: path)) :
    EndsLoops walk (order.successors key) arena
      (fun after => arena.Discovers order (key :: path) key after ∧
        ∀ next ∈ order.successors key, after.Met next)
      (fun _ after => arena.MeetsAbove order key after) := by
  refine (endsLoops
    (fun todo after => arena.Discovers order (key :: path) key after ∧
      ∀ next ∈ order.successors key, next ∈ todo ∨ after.Met next)
    ?link ?step ⟨⟨h, fun _ hmet => hmet, .refl key arena⟩, fun _ hnext => .inl hnext⟩).mono ?done
  case link =>
    rintro todo after lower uppers ⟨⟨hclosed, hkept, hreached⟩, htodo⟩
    refine ⟨⟨hclosed.of_met_iff fun _ => met_linkAll, ?_, ?_⟩, ?_⟩
    · intro other hother
      exact met_linkAll.2 (hkept other hother)
    · intro other hother
      exact hreached other (met_linkAll.1 hother)
    · intro next hnext
      exact (htodo next hnext).imp_right met_linkAll.2
  case step =>
    rintro next hnext rest before ⟨hbefore, htodo⟩
    refine (hwalk next hnext before hbefore.closed).mono ?_ ?_
    · rintro found after ⟨hafter, hmet⟩
      refine ⟨⟨hafter.closed, ?_, hbefore.reached.trans hafter.reached hnext⟩,
        rest_or_done next hmet ?_⟩
      · intro other hother
        exact hafter.kept other (hbefore.kept other hother)
      · intro other hother
        exact (htodo other hother).imp_right (hafter.kept other)
    · intro twice after hstuck
      exact hbefore.reached.trans hstuck hnext
  case done =>
    rintro after ⟨hafter, hall⟩
    exact ⟨hafter, fun next hnext => (hall next hnext).resolve_left List.not_mem_nil⟩

theorem closed_addNode {node : Node K V} (h : arena.Closed order path) :
    (arena.addNode key node).Closed order (key :: path) := by
  intro other hother
  rcases met_addNode.1 hother with rfl | hold
  · exact .inl List.mem_cons_self
  · refine (h.cons other hold).imp_right ?_
    intro hall next hnext
    exact met_addNode.2 (.inr (hall next hnext))

theorem descend_discovers {node : Node K V} {id : NodeId}
    (hwalk : ∀ next ∈ order.successors key, ∀ arena : Arena K V,
      arena.Closed order (key :: path) → (walk next).Ends arena
        (fun _ after => arena.Discovers order (key :: path) next after ∧ after.Met next)
        fun _ after => arena.MeetsAbove order next after)
    (h : arena.Closed order path) :
    (descend walk id (order.successors key)).Ends (arena.addNode key node)
      (fun _ after => arena.Discovers order path key after ∧ after.Met key)
      (fun _ after => arena.MeetsAbove order key after) := by
  refine ((loops_discover hwalk (closed_addNode h)).descend id).mono ?_ fun _ _ h => h.of_addNode
  rintro _ after ⟨hafter, hall⟩
  have hkey : after.Met key := hafter.kept key (met_addNode.2 (.inl rfl))
  apply hafter.finish hall
  · intro other hother
    exact met_addNode.2 (.inr hother)
  · intro other hother
    exact met_addNode.1 hother
  · intro other
    refine ⟨.inr, ?_⟩
    rintro (rfl | hother)
    · exact hkey
    · exact hother

theorem gather_discovers {record : OrderedSet NodeId → Arena K V → Arena K V}
    (hwalk : ∀ next ∈ order.successors key, ∀ arena : Arena K V,
      arena.Closed order (key :: path) → (walk next).Ends arena
        (fun _ after => arena.Discovers order (key :: path) next after ∧ after.Met next)
        fun _ after => arena.MeetsAbove order next after)
    (hrecord : ∀ found after other, (record found after).Met other ↔ other = key ∨ after.Met other)
    (h : arena.Closed order path) :
    (gather walk ∅ (order.successors key)).Ends arena
      (fun found after => arena.Discovers order path key (record found after) ∧
        (record found after).Met key)
      (fun _ after => arena.MeetsAbove order key after) := by
  have hends : (gather walk ∅ (order.successors key)).Ends arena
      (fun _ after => arena.Discovers order (key :: path) key after ∧
        ∀ next ∈ order.successors key, after.Met next)
      (fun _ after => arena.MeetsAbove order key after) :=
    (loops_discover hwalk h.cons).gather ∅
  refine hends.mono ?_ fun _ _ h => h
  rintro found after ⟨hafter, hall⟩
  exact hafter.finish hall (fun _ hother => hother) (fun _ hother => .inr hother) (hrecord found after)

/-- A walk that answers has met its key and all keys above it, and no walk meets others. -/
theorem reach_discovers (h : arena.Closed order path) :
    (reach order filter path key).Ends arena
      (fun _ after => arena.Discovers order path key after ∧ after.Met key)
      (fun _ after => arena.MeetsAbove order key after) := by
  induction path, key using order.walk_induction generalizing arena with
  | step path key ih =>
    refine ends_reach ?_ ?_ ?_ ?_
    · intro _
      exact .refl key arena
    · intro _ frontier hfrontier
      have hmet : arena.Met key := by simp [Arena.Met, hfrontier]
      exact ⟨⟨h, fun _ hother => hother, .refl key arena⟩, hmet⟩
    · intro hkey _ _
      exact descend_discovers (fun next hnext arena harena => ih hkey next hnext harena) h
    · intro hkey _ _
      exact gather_discovers (fun next hnext arena harena => ih hkey next hnext harena)
        (fun _ _ _ => met_passOver) h

/-- Locating a key discovers it and the keys above it. -/
theorem locate_discovers (h : arena.Closed order []) :
    (locate order filter key).Ends arena
      (fun _ after => arena.Discovers order [] key after)
      (fun _ after => arena.MeetsAbove order key after) := by
  have hwalk : ∀ next ∈ order.successors key, ∀ arena : Arena K V, arena.Closed order [key] →
      (reach order filter [key] next).Ends arena
        (fun _ after => arena.Discovers order [key] next after ∧ after.Met next)
        fun _ after => arena.MeetsAbove order next after :=
    fun next _ arena harena => reach_discovers harena
  refine ends_locate ?_ ?_ ?_ ?_
  · intro id _
    exact ⟨h, fun _ hother => hother, .refl key arena⟩
  · intro _ _
    exact (descend_discovers hwalk h).mono (fun _ _ hafter => hafter.1) fun _ _ h => h
  · intro hslot _ frontier hskipped
    have hkey : arena.Met key := by simp [Arena.met_iff, hskipped]
    have hmet : ∀ other, ((arena.forget key).place key frontier).2.Met other ↔ arena.Met other := by
      intro other
      rw [met_place, met_forget]
      by_cases heq : other = key
      · simp [heq, hkey]
      · simp [heq]
    exact ⟨h.of_met_iff hmet, fun other hother => (hmet other).2 hother,
      fun other hother => .inl ((hmet other).1 hother)⟩
  · intro _ _ _
    exact (gather_discovers hwalk (fun found after _ => met_place) h).mono
      (fun _ _ hafter => hafter.1) fun _ _ h => h

end Build

end Downset
