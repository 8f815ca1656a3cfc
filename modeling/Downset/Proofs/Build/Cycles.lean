import Downset.Proofs.Build.Outcome
import Downset.Proofs.Order.Safety

/-!
# Where a walk stops

A walk stops only at a key on a cycle at or above the key where it began, whatever the arena
holds already. For the other direction the arena matters, because a walk does not go on at a
key that was met before: if every key met before is safe, a walk that answers began at a safe
key, and every key that it met is safe.
-/

namespace Downset

variable {K V : Type} [DecidableEq K]

/-- Whether something is known of a key: its slot, or what lies beyond it. -/
def Arena.Met (arena : Arena K V) (key : K) : Prop := arena.frontier? key ≠ none

namespace Arena

variable {arena : Arena K V} {key other : K}

theorem met_iff :
    arena.Met key ↔ arena.slots.find? key ≠ none ∨ arena.skipped.find? key ≠ none := by
  rw [Met, Ne, frontier?_eq_none_iff, Classical.not_and_iff_not_or_not]

theorem not_met_iff :
    ¬ arena.Met key ↔ arena.slots.find? key = none ∧ arena.skipped.find? key = none := by
  rw [Met, Ne, Classical.not_not, frontier?_eq_none_iff]

theorem met_of_slot {n : NodeId} (hslot : arena.slots.find? key = some n) : arena.Met key := by
  simp [met_iff, hslot]

theorem met_addNode {node : Node K V} :
    (arena.addNode key node).Met other ↔ other = key ∨ arena.Met other := by
  by_cases h : other = key <;> simp [met_iff, addNode, Table.find?_insert, h]

theorem met_addDeadEnd : (arena.addDeadEnd key).Met other ↔ other = key ∨ arena.Met other := by
  by_cases h : other = key <;> simp [met_iff, addDeadEnd, Table.find?_insert, h]

theorem met_remember {frontier : OrderedSet NodeId} :
    (arena.remember key frontier).Met other ↔ other = key ∨ arena.Met other := by
  by_cases h : other = key <;> simp [met_iff, remember, Table.find?_insert, h]

theorem met_forget :
    (arena.forget key).Met other ↔
      arena.Met other ∧ (other = key → arena.slots.find? other ≠ none) := by
  by_cases h : other = key
  · simpa [met_iff, forget, Table.find?_erase, h] using Or.inl
  · simp [met_iff, forget, Table.find?_erase, h]

theorem met_modify {id : NodeId} {change : Node K V → Node K V} :
    (arena.modify id change).Met other ↔ arena.Met other := by
  simp [met_iff, modify]

theorem met_link {lower upper : NodeId} : (arena.link lower upper).Met other ↔ arena.Met other := by
  rw [link, met_modify, met_modify]

theorem met_linkAll {lower : NodeId} {uppers : List NodeId} :
    (arena.linkAll lower uppers).Met other ↔ arena.Met other := by
  induction uppers generalizing arena with
  | nil => rfl
  | cons upper uppers ih =>
    change ((arena.link lower upper).linkAll lower uppers).Met other ↔ arena.Met other
    rw [ih, met_link]

theorem met_passOver {frontier : OrderedSet NodeId} :
    (arena.passOver key frontier).Met other ↔ other = key ∨ arena.Met other := by
  unfold passOver
  split
  · exact met_addDeadEnd
  · exact met_remember

theorem met_place {frontier : OrderedSet NodeId} :
    (arena.place key frontier).2.Met other ↔ other = key ∨ arena.Met other := by
  unfold place
  split
  · exact met_addDeadEnd
  · rw [met_linkAll, met_addNode]

end Arena

/-- Every key met so far is safe, those on the path excepted. -/
def Arena.MeetsSafe (order : KeyOrder K) (path : List K) (arena : Arena K V) : Prop :=
  ∀ other, arena.Met other → other ∈ path ∨ order.Safe other

namespace Arena.MeetsSafe

variable {order : KeyOrder K} {path : List K} {key : K} {arena after : Arena K V}

theorem cons (h : arena.MeetsSafe order path) : arena.MeetsSafe order (key :: path) := by
  intro other hother
  rcases h other hother with hpath | hsafe
  · exact .inl (List.mem_cons_of_mem _ hpath)
  · exact .inr hsafe

theorem of_cons (h : arena.MeetsSafe order (key :: path)) (hkey : order.Safe key) :
    arena.MeetsSafe order path := by
  intro other hother
  rcases h other hother with hpath | hsafe
  · rcases List.mem_cons.1 hpath with rfl | hpath
    · exact .inr hkey
    · exact .inl hpath
  · exact .inr hsafe

theorem of_met (h : arena.MeetsSafe order path) (hkey : key ∈ path ∨ order.Safe key)
    (hmet : ∀ other, after.Met other → other = key ∨ arena.Met other) :
    after.MeetsSafe order path := by
  intro other hother
  rcases hmet other hother with rfl | hold
  · exact hkey
  · exact h other hold

end Arena.MeetsSafe

namespace Build

variable {order : KeyOrder K} {filter : KeyFilter K} {path : List K} {key : K} {arena : Arena K V}
  {walk : K → Build K V (OrderedSet NodeId)}

omit [DecidableEq K] in
/-- The loops over the successors of a key stop where the walks from them stop. -/
theorem loops_stuck
    (hwalk : ∀ next ∈ order.successors key, ∀ arena : Arena K V,
      (walk next).Ends arena (fun _ _ => True)
        (fun twice _ => Reaches order.successors next twice ∧ OnCycle order.successors twice)) :
    EndsLoops walk (order.successors key) arena (fun _ => True)
      (fun twice _ => Reaches order.successors key twice ∧ OnCycle order.successors twice) := by
  refine endsLoops (fun _ _ => True) (fun _ _ _ _ h => h) ?_ trivial
  intro next hnext _ before _
  refine (hwalk next hnext before).mono (fun _ _ h => h) ?_
  rintro twice after ⟨hreaches, hcycle⟩
  exact ⟨.head hnext hreaches, hcycle⟩

/-- A walk stops only at a key that lies on a cycle at or above its beginning. -/
theorem reach_stuck (hpath : ∀ p ∈ path, Above order.successors p key) :
    (reach order filter path key).Ends arena (fun _ _ => True)
      (fun twice _ => Reaches order.successors key twice ∧ OnCycle order.successors twice) := by
  induction path, key using order.walk_induction generalizing arena with
  | step path key ih =>
    have hwalk : key ∉ path → ∀ next ∈ order.successors key, ∀ arena : Arena K V,
        (reach order filter (key :: path) next).Ends arena (fun _ _ => True)
          (fun twice _ => Reaches order.successors next twice ∧ OnCycle order.successors twice) :=
      fun hkey next hnext _ => ih hkey next hnext (above_cons hpath hnext)
    refine ends_reach ?_ ?_ ?_ ?_
    · intro hkey
      exact ⟨.refl, hpath key hkey⟩
    · intros
      trivial
    · intro hkey _ _
      exact (loops_stuck (hwalk hkey)).descend arena.nextId
    · intro hkey _ _
      exact (loops_stuck (hwalk hkey)).gather ∅

theorem locate_stuck :
    (locate order filter key).Ends arena (fun _ _ => True)
      (fun twice _ => Reaches order.successors key twice ∧ OnCycle order.successors twice) := by
  have hwalk : ∀ next ∈ order.successors key, ∀ arena : Arena K V,
      (reach order filter [key] next).Ends arena (fun _ _ => True)
        (fun twice _ => Reaches order.successors next twice ∧ OnCycle order.successors twice) :=
    fun next hnext _ => reach_stuck (above_cons (fun p hp => absurd hp List.not_mem_nil) hnext)
  refine ends_locate ?_ ?_ ?_ ?_
  · intros
    trivial
  · intro _ _
    exact (loops_stuck hwalk).descend arena.nextId
  · intros
    trivial
  · intro _ _ _
    exact (loops_stuck hwalk).gather ∅

/-- If the walks from the successors of a key meet safe keys only, the key is safe as well. -/
theorem loops_meetSafe
    (hwalk : ∀ next ∈ order.successors key, ∀ arena : Arena K V,
      arena.MeetsSafe order (key :: path) → (walk next).Ends arena
        (fun _ after => after.MeetsSafe order (key :: path) ∧ order.Safe next) fun _ _ => True)
    (h : arena.MeetsSafe order (key :: path)) :
    EndsLoops walk (order.successors key) arena
      (fun after => after.MeetsSafe order path ∧ order.Safe key) (fun _ _ => True) := by
  refine (endsLoops
    (fun todo after => after.MeetsSafe order (key :: path) ∧
      ∀ next ∈ order.successors key, next ∈ todo ∨ order.Safe next)
    ?link ?step ⟨h, fun _ hnext => .inl hnext⟩).mono ?done
  case link =>
    rintro todo after lower uppers ⟨hafter, htodo⟩
    exact ⟨fun other hother => hafter other (Arena.met_linkAll.1 hother), htodo⟩
  case step =>
    rintro next hnext rest before ⟨hbefore, htodo⟩
    refine (hwalk next hnext before hbefore).mono ?_ fun _ _ h => h
    rintro found after ⟨hafter, hsafe⟩
    exact ⟨hafter, rest_or_done next hsafe htodo⟩
  case done =>
    rintro after ⟨hafter, hall⟩
    have hsafe : order.Safe key :=
      KeyOrder.safe_of_successors fun next hnext => (hall next hnext).resolve_left List.not_mem_nil
    exact ⟨hafter.of_cons hsafe, hsafe⟩

/-- When all keys met before are safe, a walk that answers began at a safe key, and the keys
that it met are safe. -/
theorem reach_meetsSafe (h : arena.MeetsSafe order path) :
    (reach order filter path key).Ends arena
      (fun _ after => after.MeetsSafe order path ∧ order.Safe key) (fun _ _ => True) := by
  induction path, key using order.walk_induction generalizing arena with
  | step path key ih =>
    refine ends_reach ?_ ?_ ?_ ?_
    · intros
      trivial
    · intro hkey frontier hfrontier
      have hmet : arena.Met key := by simp [Arena.Met, hfrontier]
      exact ⟨h, (h key hmet).resolve_left hkey⟩
    · intro hkey _ _
      have hstart : (arena.addNode key (.newQuery key)).MeetsSafe order (key :: path) :=
        h.cons.of_met (.inl List.mem_cons_self) fun other hother => Arena.met_addNode.1 hother
      exact (loops_meetSafe (fun next hnext _ => ih hkey next hnext) hstart).descend arena.nextId
    · intro hkey _ _
      refine ((loops_meetSafe (fun next hnext _ => ih hkey next hnext) h.cons).gather ∅).mono ?_
        fun _ _ h => h
      rintro frontier after ⟨hafter, hsafe⟩
      exact ⟨hafter.of_met (.inr hsafe) fun other hother => Arena.met_passOver.1 hother, hsafe⟩

theorem locate_meetsSafe (h : arena.MeetsSafe order []) :
    (locate order filter key).Ends arena
      (fun _ after => after.MeetsSafe order [] ∧ order.Safe key) (fun _ _ => True) := by
  refine ends_locate ?_ ?_ ?_ ?_
  · intro id hslot
    have hmet : arena.Met key := by simp [Arena.met_iff, hslot]
    exact ⟨h, (h key hmet).resolve_left List.not_mem_nil⟩
  · intro _ _
    have hstart : (arena.addNode key (.newQuery key)).MeetsSafe order [key] :=
      h.cons.of_met (.inl List.mem_cons_self) fun other hother => Arena.met_addNode.1 hother
    exact (loops_meetSafe (fun _ _ _ => reach_meetsSafe) hstart).descend arena.nextId
  · intro _ _ frontier hskipped
    have hmet : arena.Met key := by simp [Arena.met_iff, hskipped]
    have hsafe : order.Safe key := (h key hmet).resolve_left List.not_mem_nil
    refine ⟨h.of_met (.inr hsafe) fun other hother => ?_, hsafe⟩
    exact (Arena.met_place.1 hother).imp id fun hforget => (Arena.met_forget.1 hforget).1
  · intro _ _ _
    refine ((loops_meetSafe (fun _ _ _ => reach_meetsSafe) h.cons).gather ∅).mono ?_ fun _ _ h => h
    rintro frontier after ⟨hafter, hsafe⟩
    exact ⟨hafter.of_met (.inr hsafe) fun other hother => Arena.met_place.1 hother, hsafe⟩

end Build

end Downset
