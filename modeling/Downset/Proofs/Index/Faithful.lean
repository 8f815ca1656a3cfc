import Downset.Proofs.Arena.Flow
import Downset.Proofs.Index.Making

/-!
# What holds throughout a session

The arena is consistent, whatever puts have failed; its nodes hold what was put and nothing
else; and caches that may be used again are exact. As long as no put ran into a cycle, all keys
met are safe. All this holds of an index that was just made and is kept by every operation.
-/

namespace Downset

variable {K V : Type} [DecidableEq K] {order : KeyOrder K} {filter : KeyFilter K}

/-- The nodes hold the values of a list at the keys given there, except in the sink. -/
structure Arena.Holds (arena : Arena K V) (held : List (K × V)) : Prop where
  located : ∀ {key value}, (key, value) ∈ held → ∃ n, arena.slots.find? key = some n
  values : ∀ {n value}, value ∈ (arena.node n).values ↔
    n ≠ .sink ∧ ∃ key, arena.slots.find? key = some n ∧ (key, value) ∈ held

namespace Arena.Holds

variable {arena after : Arena K V} {held : List (K × V)} {key : K} {id : NodeId} {value : V}

theorem nil (h : ∀ n, (arena.node n).values = ∅) : arena.Holds [] := by
  refine ⟨fun hmem => absurd hmem List.not_mem_nil, ?_⟩
  intro n value
  rw [h]
  refine iff_of_false (OrderedSet.not_mem_empty value) ?_
  rintro ⟨_, key, _, hmem⟩
  exact List.not_mem_nil hmem

theorem extend (h : arena.Holds held) (hextends : Extends arena after) : after.Holds held := by
  constructor
  · intro key value hmem
    obtain ⟨n, hn⟩ := h.located hmem
    exact ⟨n, hextends.slot hn⟩
  · intro n value
    rw [hextends.values, h.values]
    refine and_congr_right fun _ => ⟨?_, ?_⟩
    · rintro ⟨key, hslot, hmem⟩
      exact ⟨key, hextends.slot hslot, hmem⟩
    · rintro ⟨key, hslot, hmem⟩
      obtain ⟨m, hm⟩ := h.located hmem
      have heq : some m = some n := (hextends.slot hm).symm.trans hslot
      rw [Option.some.injEq] at heq
      exact ⟨key, heq ▸ hm, hmem⟩

variable [DecidableEq V]

theorem accept (h : arena.Holds held) (hw : arena.WellFormed filter)
    (hslot : arena.slots.find? key = some id) :
    (arena.modify id (·.accept value)).Holds ((key, value) :: held) := by
  have hsink : (arena.node id).kind ≠ .sink ↔ id ≠ .sink :=
    ⟨hw.ne_sink, fun hne => kind_ne_sink (hw.key_of_slot hslot hne)⟩
  constructor
  · intro other third hmem
    rcases List.mem_cons.1 hmem with heq | hmem
    · obtain ⟨rfl, rfl⟩ := Prod.mk.inj heq
      exact ⟨id, hslot⟩
    · exact h.located hmem
  · intro n third
    rw [mem_values_accept, h.values]
    constructor
    · rintro (⟨hn, other, hother, hmem⟩ | ⟨rfl, hkind, rfl⟩)
      · exact ⟨hn, other, hother, List.mem_cons_of_mem _ hmem⟩
      · exact ⟨hsink.1 hkind, key, hslot, List.mem_cons_self⟩
    · rintro ⟨hn, other, hother, hmem⟩
      rcases List.mem_cons.1 hmem with heq | hmem
      · obtain ⟨rfl, rfl⟩ := Prod.mk.inj heq
        change arena.slots.find? other = some n at hother
        rw [hslot, Option.some.injEq] at hother
        subst hother
        exact .inr ⟨rfl, hsink.2 hn, rfl⟩
      · exact .inl ⟨hn, other, hother, hmem⟩

end Arena.Holds

namespace Session

variable {s : Session K V} {index : Index K V}

/-- What is to be said of the index of a session at any time. -/
structure Faithful (order : KeyOrder K) (filter : KeyFilter K) (s : Session K V) : Prop where
  order_eq : s.index.order = order
  filter_eq : s.index.filter = filter
  consistent : Arena.Consistent order filter (order.Bridged filter) [] s.index.arena
  holds : s.index.arena.Holds s.held
  exact : s.index.arena.ExactCaches s.index.caches
  uncached : s.index.phase = .writable → s.index.caches = ∅
  smooth : s.Smooth → s.index.arena.MeetsSafe order []

theorem faithful_start [Quotable K] (h : index.Initial order) :
    (start index).Faithful order index.filter := by
  induction h with
  | ofPredicate holds =>
    refine ⟨rfl, rfl, Arena.consistent_empty order _ _, .nil ?_, Arena.exactCaches_empty _,
      fun _ => rfl, fun _ => Arena.meetsSafe_empty order⟩
    intro n
    change ((∅ : Arena K V).node n).values = ∅
    rw [Arena.node_empty]
    rfl
  | @ofKeys keys index made =>
    rcases Index.ofKeys_cases order keys with ⟨arena, hmade, h, _⟩ | ⟨_, _, twice, hfails, _⟩
    · rw [made, Except.ok.injEq] at hmade
      subst hmade
      obtain ⟨hconsistent, hsafe, hvalues⟩ := h.dropTransitive
      exact ⟨rfl, rfl, hconsistent, .nil hvalues, Arena.exactCaches_empty _, fun _ => rfl,
        fun _ => hsafe⟩
    · rw [made] at hfails
      cases hfails
  | withRender initial render ih => exact ⟨ih.1, ih.2, ih.3, ih.4, ih.5, ih.6, ih.7⟩

namespace Faithful

variable {key lower : K} {value : V}

/-- As long as no put ran into a cycle, all keys at which something is held are safe. -/
theorem safe_of_held (h : s.Faithful order filter) (hsmooth : s.Smooth)
    (hheld : (key, value) ∈ s.held) : order.Safe key := by
  obtain ⟨n, hslot⟩ := h.holds.located hheld
  have hmet : s.index.arena.Met key := by
    rw [Arena.met_iff, hslot]
    exact .inl (Option.some_ne_none n)
  exact (h.smooth hsmooth key hmet).resolve_left List.not_mem_nil

theorem kindOf?_eq_query (h : s.Faithful order filter) (hheld : (lower, value) ∈ s.held)
    (hsafe : order.Safe lower) (hreaches : Reaches order.successors lower key)
    (haccepts : filter.accepts key = true) : s.index.kindOf? key = some .query := by
  obtain ⟨n, hn⟩ := h.holds.located hheld
  obtain ⟨m, hm, _⟩ := h.consistent.exists_flow (fun _ _ h => h) hsafe hn hreaches haccepts
  unfold Index.kindOf? Arena.kindOf?
  rw [hm, Option.map_some, h.consistent.kind_of_accepts hm haccepts]

end Faithful

variable [DecidableEq V]

namespace Faithful

theorem put (h : s.Faithful order filter) (key : K) (value : V) :
    (s.step (.put key value)).Faithful order filter := by
  obtain ⟨rfl, rfl, hconsistent, hholds, hexact, huncached, hsmooth⟩ := h
  by_cases hphase : s.index.phase = .writable
  · rcases s.index.locate_cases key hconsistent with
      ⟨id, after, hlocate, hlocates⟩ | ⟨twice, after, hlocate, habandons⟩
    · rw [step_put_ok (Index.put_of_located hphase hlocate)]
      have hafter := hlocates.consistent
      have hshape := after.sameShape_accept id value
      refine ⟨rfl, rfl, hshape.consistent hafter, ?_, ?_, huncached, fun hs => ?_⟩
      · exact (hholds.extend hlocates.toExtends).accept hafter.toWellFormed hlocates.located
      · change Arena.ExactCaches _ s.index.caches
        rw [huncached hphase]
        exact Arena.exactCaches_empty _
      · exact hshape.meetsSafe (hlocates.safe (hsmooth hs)).1
    · rw [step_put_error (Index.put_of_abandoned hphase hlocate)]
      refine ⟨rfl, rfl, habandons.consistent, hholds.extend habandons.toExtends, ?_, huncached,
        fun hs => ?_⟩
      · change Arena.ExactCaches _ s.index.caches
        rw [huncached hphase]
        exact Arena.exactCaches_empty _
      · exact absurd List.mem_cons_self (hs _ _)
  · rw [step_put_error (Index.put_of_ne_writable hphase)]
    refine ⟨rfl, rfl, hconsistent, hholds, hexact, huncached, fun hs => hsmooth ?_⟩
    intro name text hmem
    exact hs name text (List.mem_cons_of_mem _ hmem)

theorem get (h : s.Faithful order filter) (key : K) :
    (s.step (.get key)).Faithful order filter := by
  obtain ⟨rfl, rfl, hconsistent, hholds, hexact, huncached, hsmooth⟩ := h
  by_cases hphase : s.index.phase = .readable
  · obtain ⟨found, caches, hget, hafter, _⟩ := s.index.get_spec key hphase
      hconsistent.toWellFormed (fun n => hconsistent.not_onCycle) hexact
    rw [step_get_ok hget]
    refine ⟨rfl, rfl, hconsistent, hholds, hafter, ?_, hsmooth⟩
    intro hwritable
    cases hphase.symm.trans hwritable
  · rw [step_get_error (Index.get_of_ne_readable hphase)]
    refine ⟨rfl, rfl, hconsistent, hholds, hexact, huncached, fun hs => hsmooth ?_⟩
    intro name text hmem
    exact hs name text (List.mem_cons_of_mem _ hmem)

theorem makeReadable (h : s.Faithful order filter) :
    (s.step .makeReadable).Faithful order filter := by
  refine ⟨h.order_eq, h.filter_eq, h.consistent, h.holds, h.exact, ?_, h.smooth⟩
  intro hwritable
  cases hwritable

theorem makeWritable (h : s.Faithful order filter) :
    (s.step .makeWritable).Faithful order filter :=
  ⟨h.order_eq, h.filter_eq, h.consistent, h.holds, Arena.exactCaches_empty _, fun _ => rfl, h.smooth⟩

theorem makeWritableAndClear (h : s.Faithful order filter) :
    (s.step .makeWritableAndClear).Faithful order filter := by
  have hshape := s.index.arena.sameShape_clear
  exact ⟨h.order_eq, h.filter_eq, hshape.consistent h.consistent, .nil fun n => Arena.values_clear,
    Arena.exactCaches_empty _, fun _ => rfl, fun hs => hshape.meetsSafe (h.smooth hs)⟩

theorem step (h : s.Faithful order filter) (operation : Operation K V) :
    (s.step operation).Faithful order filter := by
  cases operation with
  | put key value => exact h.put key value
  | get key => exact h.get key
  | makeReadable => exact h.makeReadable
  | makeWritable => exact h.makeWritable
  | makeWritableAndClear => exact h.makeWritableAndClear

theorem run (h : s.Faithful order filter) (operations : List (Operation K V)) :
    (s.run operations).Faithful order filter := by
  induction operations generalizing s with
  | nil => exact h
  | cons operation rest ih => exact ih (h.step operation)

section Put

variable {key : K} {value : V} {fault : Fault}

/-- At a safe key a put succeeds, whatever happened before. -/
theorem put_ok (h : s.Faithful order filter) (hphase : s.index.phase = .writable)
    (hsafe : order.Safe key) :
    ∃ after, s.index.put key value = (.ok (), { s.index with arena := after }) := by
  obtain ⟨rfl, rfl, hconsistent, _⟩ := h
  rcases s.index.locate_cases key hconsistent with
    ⟨id, after, hlocate, _⟩ | ⟨twice, after, _, habandons⟩
  · exact ⟨_, Index.put_of_located hphase hlocate⟩
  · exact absurd habandons.onCycle (hsafe twice habandons.reaches)

theorem run_puts (h : s.Faithful order filter) (hphase : s.index.phase = .writable)
    (entries : List (K × V)) (hsafe : ∀ entry ∈ entries, order.Safe entry.1) :
    (s.run (Operation.puts entries)).held = entries.reverse ++ s.held ∧
      (s.run (Operation.puts entries)).faults = s.faults ∧
      (s.run (Operation.puts entries)).index.phase = .writable := by
  induction entries generalizing s with
  | nil => exact ⟨rfl, rfl, hphase⟩
  | cons entry rest ih =>
    obtain ⟨after, hput⟩ := h.put_ok hphase (hsafe entry List.mem_cons_self)
    have hstep := h.step (.put entry.1 entry.2)
    have hrest := fun other hother => hsafe other (List.mem_cons_of_mem entry hother)
    rw [step_put_ok hput] at hstep
    rw [Operation.puts_cons, run_cons, step_put_ok hput]
    obtain ⟨hheld, hfaults, hwritable⟩ := ih hstep hphase hrest
    refine ⟨?_, hfaults, hwritable⟩
    rw [hheld, List.reverse_cons, List.append_assoc, List.singleton_append]

theorem run_batch (h : s.Faithful order filter) (hsmooth : s.Smooth)
    (hphase : s.index.phase = .writable) (entries : List (K × V))
    (hsafe : ∀ entry ∈ entries, order.Safe entry.1) :
    (s.run (Operation.puts entries ++ [.makeReadable])).held = entries.reverse ++ s.held ∧
      (s.run (Operation.puts entries ++ [.makeReadable])).Smooth ∧
      (s.run (Operation.puts entries ++ [.makeReadable])).index.phase = .readable := by
  obtain ⟨hheld, hfaults, _⟩ := h.run_puts hphase entries hsafe
  rw [run_append]
  refine ⟨hheld, ?_, rfl⟩
  intro name text hmem
  change _ ∈ (s.run (Operation.puts entries)).faults at hmem
  rw [hfaults] at hmem
  exact hsmooth name text hmem

/-- A put that fails in the writable phase has run into a cycle, and no node got a value. -/
theorem put_error (h : s.Faithful order filter) (hphase : s.index.phase = .writable)
    (hput : s.index.put key value = (.error fault, index)) :
    (∃ twice, fault = .cycleDetected order.name (s.index.render twice) ∧
      Reaches order.successors key twice ∧ OnCycle order.successors twice) ∧
    ∃ after, index = { s.index with arena := after } ∧
      ∀ n, (after.node n).values = (s.index.arena.node n).values := by
  obtain ⟨rfl, rfl, hconsistent, _⟩ := h
  rcases s.index.locate_cases key hconsistent with
    ⟨id, after, hlocate, _⟩ | ⟨twice, after, hlocate, habandons⟩
  · rw [Index.put_of_located hphase hlocate] at hput
    cases (Prod.mk.inj hput).1
  · rw [Index.put_of_abandoned hphase hlocate] at hput
    obtain ⟨hfault, rfl⟩ := Prod.mk.inj hput
    rw [Except.error.injEq] at hfault
    exact ⟨⟨twice, hfault.symm, habandons.reaches, habandons.onCycle⟩, after, rfl, habandons.values⟩

theorem safe_of_put_ok (h : s.Faithful order filter) (hsmooth : s.Smooth)
    (hput : s.index.put key value = (.ok (), index)) : order.Safe key := by
  have hmeets := h.smooth hsmooth
  obtain ⟨rfl, rfl, hconsistent, _⟩ := h
  by_cases hphase : s.index.phase = .writable
  · rcases s.index.locate_cases key hconsistent with
      ⟨id, after, _, hlocates⟩ | ⟨twice, after, hlocate, _⟩
    · exact (hlocates.safe hmeets).2
    · rw [Index.put_of_abandoned hphase hlocate] at hput
      cases (Prod.mk.inj hput).1
  · rw [Index.put_of_ne_writable hphase] at hput
    cases (Prod.mk.inj hput).1

end Put

/-- What is got was put at or below the key, and what was put at a safe key is got above it. -/
theorem get_answer (h : s.Faithful order filter) (hphase : s.index.phase = .readable)
    (key : K) : ∃ found caches, s.index.get key = (.ok found, { s.index with caches := caches }) ∧
      (∀ value ∈ found, filter.accepts key = true ∧
        ∃ lower, (lower, value) ∈ s.held ∧ Reaches order.successors lower key) ∧
      ∀ lower value, (lower, value) ∈ s.held → order.Safe lower →
        Reaches order.successors lower key → filter.accepts key = true → value ∈ found := by
  obtain ⟨rfl, rfl, hconsistent, hholds, hexact, _⟩ := h
  obtain ⟨found, caches, hget, _, hfound⟩ := s.index.get_spec key hphase
    hconsistent.toWellFormed (fun n => hconsistent.not_onCycle) hexact
  refine ⟨found, _, hget, ?_, ?_⟩
  · intro value hvalue
    obtain ⟨m, hm, hkind, n, hflow, hvalue⟩ := (hfound value).1 hvalue
    obtain ⟨hn, lower, hlower, hheld⟩ := hholds.values.1 hvalue
    have haccepts := (hconsistent.query_iff hm).1 hkind
    refine ⟨haccepts, lower, hheld, ?_⟩
    exact hconsistent.reaches_of_flow hflow (hconsistent.key_of_slot hlower hn)
      (hconsistent.key_of_accepts hm haccepts)
  · intro lower value hheld hsafe hreaches haccepts
    obtain ⟨n, hn⟩ := hholds.located hheld
    obtain ⟨m, hm, hflow⟩ := hconsistent.exists_flow (fun _ _ h => h) hsafe hn hreaches haccepts
    have hkind := hconsistent.kind_of_accepts hm haccepts
    have hne : n ≠ .sink := by
      rintro rfl
      rcases hflow.cases_head with rfl | ⟨m', step, _⟩
      · rw [hconsistent.kind_sink] at hkind
        cases hkind
      · exact Arena.kind_ne_sink_of_mem_above step hconsistent.kind_sink
    exact (hfound value).2 ⟨m, hm, hkind, n, hflow, hholds.values.2 ⟨hne, lower, hn, hheld⟩⟩

end Faithful

end Session

end Downset
