import Downset.Proofs.Arena.Growth

/-!
# Walks keep an arena consistent

A walk from a key leaves a consistent arena behind, whether it answers or stops at a cycle,
and takes nothing away from what was there. Its answer is the frontier of the key: what the
index, the memory of keys passed over and the walk itself contribute makes no difference.
-/

namespace Downset.Build

open Arena

variable {K V : Type} [DecidableEq K] {order : KeyOrder K} {filter : KeyFilter K}
  {dropped : K → K → Prop} {path : List K} {arena : Arena K V} {key : K} {id : NodeId}
  {walk : K → Build K V (OrderedSet NodeId)}

/-- From this arena the walk answers with the frontier of the key, or it stops because the key
is not safe; in both cases it only adds to the arena and keeps it consistent. -/
def Explores (order : KeyOrder K) (filter : KeyFilter K) (dropped : K → K → Prop) (path : List K)
    (arena : Arena K V) (key : K) (walk : Build K V (OrderedSet NodeId)) : Prop :=
  walk.Ends arena
    (fun found after => Consistent order filter dropped path after ∧ Walked path arena after ∧
      IsFrontier order filter path after key found)
    (fun _ after => Consistent order filter dropped path after ∧ Walked path arena after ∧
      ¬ order.Safe key)

/-- A query node under construction is linked to the nodes of all its nearest keys. -/
theorem descend_consistent
    (hwalk : ∀ next ∈ order.successors key, ∀ arena : Arena K V,
      Consistent order filter dropped (key :: path) arena →
        Explores order filter dropped (key :: path) arena next (walk next))
    (h : Consistent order filter dropped (key :: path) arena)
    (hid : arena.slots.find? key = some id) (hne : id ≠ .sink) :
    (descend walk id (order.successors key)).Ends arena
      (fun _ after => Consistent order filter dropped path after ∧
        Walked (key :: path) arena after)
      (fun _ after => Consistent order filter dropped path after ∧
        Walked (key :: path) arena after ∧ ¬ order.Safe key) := by
  refine (ends_descend
    (fun todo after => Consistent order filter dropped (key :: path) after ∧
      Walked (key :: path) arena after ∧
      ∀ next ∈ order.successors key, next ∈ todo ∨ ∀ other, order.Safe key →
        order.Frontier filter next other →
          ∃ m, after.slots.find? other = some m ∧ m ∈ (after.node id).above)
    ?_ ⟨h, .refl _ arena, fun _ hnext => .inl hnext⟩).mono ?_ fun _ _ hstuck => hstuck
  · rintro next hnext rest before ⟨hbefore, hwalked, htodo⟩
    refine (hwalk next hnext before hbefore).mono ?_ ?_
    · rintro found after ⟨hafter, hstep, hfound⟩
      have hkey : (after.node id).key? = some key :=
        hafter.key_of_slot (hstep.slot (hwalked.slot hid)) hne
      obtain ⟨hlinked, hlinks⟩ := hafter.linkAll found.toList List.mem_cons_self hkey
        fun upper hupper => by
          obtain ⟨other, hslot, hother, hf⟩ := hfound.sound upper hupper
          exact ⟨other, hslot, hother, next, hnext, hf⟩
      refine ⟨hlinked, (hwalked.trans hstep).trans hlinks, rest_or_done next ?_ ?_⟩
      · intro other hsafe hf
        obtain ⟨m, hm, hslot⟩ := hfound.complete (hsafe.of_mem hnext) other hf
        exact ⟨m, hlinks.slot hslot, mem_above_linkAll.2 (.inr ⟨kind_ne_sink hkey, rfl, hm⟩)⟩
      · intro third hthird
        refine (htodo third hthird).imp_right fun hdone other hsafe hf => ?_
        obtain ⟨m, hslot, hm⟩ := hdone other hsafe hf
        exact ⟨m, hlinks.slot (hstep.slot hslot), hlinks.above (hstep.above hm)⟩
    · rintro twice after ⟨hafter, hstep, hunsafe⟩
      have hkey : ¬ order.Safe key := fun hsafe => hunsafe (hsafe.of_mem hnext)
      exact ⟨hafter.of_cons fun hsafe => absurd hsafe hkey, hwalked.trans hstep, hkey⟩
  · rintro _ after ⟨hafter, hwalked, hall⟩
    refine ⟨hafter.of_cons ?_, hwalked⟩
    rintro hsafe n other hslot ⟨next, hnext, hf⟩
    rw [hwalked.slot hid, Option.some.injEq] at hslot
    subst hslot
    exact (hall next hnext).resolve_left List.not_mem_nil other hsafe hf

/-- What walks from the successors of a rejected key find together is its frontier. -/
theorem gather_consistent
    (hwalk : ∀ next ∈ order.successors key, ∀ arena : Arena K V,
      Consistent order filter dropped (key :: path) arena →
        Explores order filter dropped (key :: path) arena next (walk next))
    (h : Consistent order filter dropped path arena) (hunmet : ¬ arena.Met key)
    (hkey : filter.accepts key = false) :
    (gather walk ∅ (order.successors key)).Ends arena
      (fun found after => Consistent order filter dropped path after ∧
        Walked (key :: path) arena after ∧ IsFrontier order filter path after key found)
      (fun _ after => Consistent order filter dropped path after ∧
        Walked (key :: path) arena after ∧ ¬ order.Safe key) := by
  have hstart : Consistent order filter dropped (key :: path) arena := h.cons (not_met_iff.1 hunmet).1
  refine (ends_gather
    (fun todo found after => Consistent order filter dropped (key :: path) after ∧
      Walked (key :: path) arena after ∧
      (∀ m ∈ found, ∃ other, after.slots.find? other = some m ∧ other ∉ key :: path ∧
        order.Nearest filter key other) ∧
      ∀ next ∈ order.successors key, next ∈ todo ∨ ∀ other, order.Safe key →
        order.Frontier filter next other → ∃ m ∈ found, after.slots.find? other = some m)
    ?_ ⟨hstart, .refl _ arena, fun m hm => absurd hm (OrderedSet.not_mem_empty m),
      fun _ hnext => .inl hnext⟩).mono ?_ fun _ _ hstuck => hstuck
  · rintro next hnext rest found before ⟨hbefore, hwalked, hsound, htodo⟩
    refine (hwalk next hnext before hbefore).mono ?_ ?_
    · rintro more after ⟨hafter, hstep, hmore⟩
      refine ⟨hafter, hwalked.trans hstep, ?_, rest_or_done next ?_ ?_⟩
      · intro m hm
        rcases OrderedSet.mem_union.1 hm with hm | hm
        · obtain ⟨other, hslot, hother, hf⟩ := hsound m hm
          exact ⟨other, hstep.slot hslot, hother, hf⟩
        · obtain ⟨other, hslot, hother, hf⟩ := hmore.sound m hm
          exact ⟨other, hslot, hother, next, hnext, hf⟩
      · intro other hsafe hf
        obtain ⟨m, hm, hslot⟩ := hmore.complete (hsafe.of_mem hnext) other hf
        exact ⟨m, OrderedSet.mem_union.2 (.inr hm), hslot⟩
      · intro third hthird
        refine (htodo third hthird).imp_right fun hdone other hsafe hf => ?_
        obtain ⟨m, hm, hslot⟩ := hdone other hsafe hf
        exact ⟨m, OrderedSet.mem_union.2 (.inl hm), hstep.slot hslot⟩
    · rintro twice after ⟨hafter, hstep, hunsafe⟩
      have hunsafe : ¬ order.Safe key := fun hsafe => hunsafe (hsafe.of_mem hnext)
      exact ⟨hafter.of_cons fun hsafe => absurd hsafe hunsafe, hwalked.trans hstep, hunsafe⟩
  · rintro found after ⟨hafter, hwalked, hsound, hall⟩
    have hslot := (not_met_iff.1 (hwalked.unmet List.mem_cons_self hunmet)).1
    refine ⟨hafter.of_cons ?_, hwalked, ?_, ?_⟩
    · intro _ n other hn
      cases hslot.symm.trans hn
    · intro m hm
      obtain ⟨other, hother, hpath, hf⟩ := hsound m hm
      exact ⟨other, hother, fun hmem => hpath (List.mem_cons_of_mem _ hmem),
        (KeyOrder.frontier_iff_nearest hkey).2 hf⟩
    · intro hsafe other hf
      obtain ⟨next, hnext, hf⟩ := (KeyOrder.frontier_iff_nearest hkey).1 hf
      exact (hall next hnext).resolve_left List.not_mem_nil other hsafe hf

theorem not_met_of_accepts (h : Consistent order filter dropped path arena)
    (hslot : arena.slots.find? key = none) (hkey : filter.accepts key = true) : ¬ arena.Met key := by
  rw [not_met_iff]
  refine ⟨hslot, Option.eq_none_iff_forall_ne_some.2 fun found hfound => ?_⟩
  cases hkey.symm.trans (h.skipped hfound).1

theorem consistent_addQuery (h : Consistent order filter dropped path arena) (hunmet : ¬ arena.Met key)
    (hkey : filter.accepts key = true) :
    Consistent order filter dropped (key :: path) (arena.addNode key (.newQuery key)) ∧
      (arena.addNode key (.newQuery key)).slots.find? key = some arena.nextId := by
  refine ⟨h.addNode (.newQuery key) hunmet rfl ⟨fun _ => hkey, fun _ => rfl⟩ rfl rfl rfl, ?_⟩
  rw [find?_slots_addNode, if_pos rfl]

theorem explores_reach (h : Consistent order filter dropped path arena)
    (hpath : ∀ p ∈ path, Above order.successors p key) :
    Explores order filter dropped path arena key (reach order filter path key) := by
  induction path, key using order.walk_induction generalizing arena with
  | step path key ih =>
    have hwalk : key ∉ path → ∀ next ∈ order.successors key, ∀ arena : Arena K V,
        Consistent order filter dropped (key :: path) arena →
          Explores order filter dropped (key :: path) arena next
            (reach order filter (key :: path) next) :=
      fun hkey next hnext arena harena => ih hkey next hnext harena (above_cons hpath hnext)
    refine ends_reach ?_ ?_ ?_ ?_
    · intro hkey
      exact ⟨h, .refl path arena, KeyOrder.not_safe_of_onCycle .refl (hpath key hkey)⟩
    · intro hkey found hfound
      exact ⟨h, .refl path arena, h.isFrontier hkey hfound⟩
    · intro hkey hunmet haccepts
      have hunmet : ¬ arena.Met key := fun hmet => hmet hunmet
      obtain ⟨hstart, hid⟩ := consistent_addQuery h hunmet haccepts
      have hnew : Walked path arena (arena.addNode key (.newQuery key)) :=
        walked_addNode hunmet hkey rfl rfl (fun hleaf => by cases hleaf)
      refine (descend_consistent (hwalk hkey) hstart hid h.nextId_ne_sink).mono ?_ ?_
      · rintro _ after ⟨hafter, hwalked⟩
        refine ⟨hafter, hnew.trans hwalked.of_cons, ?_, ?_⟩
        · intro m hm
          rw [OrderedSet.mem_singleton.1 hm]
          exact ⟨key, hwalked.slot hid, hkey, .here haccepts⟩
        · intro _ other hother
          rw [hother.eq_of_accepts haccepts]
          exact ⟨arena.nextId, OrderedSet.mem_singleton.2 rfl, hwalked.slot hid⟩
      · rintro twice after ⟨hafter, hwalked, hunsafe⟩
        exact ⟨hafter, hnew.trans hwalked.of_cons, hunsafe⟩
    · intro hkey hunmet hrejected
      have hunmet : ¬ arena.Met key := fun hmet => hmet hunmet
      refine (gather_consistent (hwalk hkey) h hunmet hrejected).mono ?_ ?_
      · rintro found after ⟨hafter, hwalked, hfound⟩
        have hunmet' : ¬ after.Met key := hwalked.unmet List.mem_cons_self hunmet
        have hpass : Walked path after (after.passOver key found) := walked_passOver hunmet' hkey
        exact ⟨hafter.passOver hunmet' hrejected hfound, hwalked.of_cons.trans hpass,
          hfound.extend hpass.toExtends⟩
      · rintro twice after ⟨hafter, hwalked, hunsafe⟩
        exact ⟨hafter, hwalked.of_cons, hunsafe⟩

/-- Locating a key keeps the arena consistent and takes nothing away, also when it stops at a
cycle. If it answers, the answer is the slot of the key from then on. Leaves are made of keys
that cannot be queried only. -/
theorem locate_consistent (h : Consistent order filter dropped [] arena) :
    (locate order filter key).Ends arena
      (fun id after => Consistent order filter dropped [] after ∧ Extends arena after ∧
        after.slots.find? key = some id ∧
        (filter.accepts key = true →
          ∀ n, (after.node n).kind = .leaf → (arena.node n).kind = .leaf))
      (fun _ after => Consistent order filter dropped [] after ∧ Extends arena after) := by
  have hwalk : ∀ next ∈ order.successors key, ∀ arena : Arena K V,
      Consistent order filter dropped [key] arena →
        Explores order filter dropped [key] arena next (reach order filter [key] next) :=
    fun next hnext arena harena => explores_reach harena
      (above_cons (fun p hp => absurd hp List.not_mem_nil) hnext)
  refine ends_locate ?_ ?_ ?_ ?_
  · intro id hid
    exact ⟨h, .refl arena, hid, fun _ _ hn => hn⟩
  · intro hslot haccepts
    have hunmet : ¬ arena.Met key := not_met_of_accepts h hslot haccepts
    obtain ⟨hstart, hid⟩ := consistent_addQuery h hunmet haccepts
    have hnew : Walked [] arena (arena.addNode key (.newQuery key)) :=
      walked_addNode hunmet List.not_mem_nil rfl rfl (fun hleaf => by cases hleaf)
    refine (descend_consistent hwalk hstart hid h.nextId_ne_sink).mono ?_ ?_
    · rintro _ after ⟨hafter, hwalked⟩
      have hall := hnew.trans hwalked.of_cons
      exact ⟨hafter, hall.toExtends, hwalked.slot hid, fun _ n hn => hall.leaf hn⟩
    · rintro twice after ⟨hafter, hwalked, _⟩
      exact ⟨hafter, (hnew.trans hwalked.of_cons).toExtends⟩
  · intro hslot hrejected found hfound
    have hunmet : ¬ (arena.forget key).Met key := by
      rw [not_met_iff, Arena.forget, Table.find?_erase]
      exact ⟨hslot, if_pos rfl⟩
    have hforget : Extends arena (arena.forget key) :=
      ⟨fun hs => hs, fun ha => ha, fun _ => rfl⟩
    obtain ⟨hafter, hplace, hid⟩ := h.forget.place hunmet hrejected
      ((h.remembered hfound).extend hforget)
    exact ⟨hafter, hforget.trans hplace, hid, fun haccepts => by simp [hrejected] at haccepts⟩
  · intro hslot hrejected hskipped
    have hunmet : ¬ arena.Met key := not_met_iff.2 ⟨hslot, hskipped⟩
    refine (gather_consistent hwalk h hunmet hrejected).mono ?_ ?_
    · rintro found after ⟨hbefore, hwalked, hfound⟩
      obtain ⟨hafter, hplace, hid⟩ :=
        hbefore.place (hwalked.unmet List.mem_cons_self hunmet) hrejected hfound
      exact ⟨hafter, hwalked.toExtends.trans hplace, hid,
        fun haccepts => by simp [hrejected] at haccepts⟩
    · rintro twice after ⟨hafter, hwalked, _⟩
      exact ⟨hafter, hwalked.toExtends⟩

end Downset.Build
