import Downset.Proofs.Index.Faithful

/-!
# What an index answers

What `get` answers for a key that can be queried is what was put at and below it. Of this
nothing is ever answered that was not put, and nothing is missing that was put at a safe key,
whatever puts have run into cycles before. If none has, two indexes over one order whose filters
accept the same keys answer alike, in whatever way they were made.
-/

namespace Downset.Session

variable {K V : Type} [DecidableEq K] [DecidableEq V] {order : KeyOrder K}
  {filter filter' : KeyFilter K} {s t : Session K V} {index : Index K V}

/-- Two sessions in the same phase in which the same values are held; no put of the second ran
into a cycle. -/
structure Agree (s t : Session K V) : Prop where
  phase : t.index.phase = s.index.phase
  held : t.held = s.held
  smooth : t.Smooth

namespace Agree

theorem put (h : s.Agree t) (hs : s.Faithful order filter) (ht : t.Faithful order filter')
    (key : K) (value : V) (hsmooth : (s.step (.put key value)).Smooth) :
    (s.step (.put key value)).Agree (t.step (.put key value)) := by
  by_cases hphase : s.index.phase = .writable
  · by_cases hsafe : order.Safe key
    · obtain ⟨after, hput⟩ := hs.put_ok hphase hsafe
      obtain ⟨after', hput'⟩ := ht.put_ok (h.phase.trans hphase) hsafe
      rw [step_put_ok hput, step_put_ok hput']
      exact ⟨h.phase, congrArg ((key, value) :: ·) h.held, h.smooth⟩
    · rcases hput : s.index.put key value with ⟨fault | _, after⟩
      · obtain ⟨⟨twice, rfl, _⟩, _⟩ := hs.put_error hphase hput
        rw [step_put_error hput] at hsmooth
        exact absurd List.mem_cons_self (hsmooth _ _)
      · exact absurd (hs.safe_of_put_ok hsmooth.of_step hput) hsafe
  · have hphase' : t.index.phase ≠ .writable := fun heq => hphase (h.phase.symm.trans heq)
    rw [step_put_error (Index.put_of_ne_writable hphase),
      step_put_error (Index.put_of_ne_writable hphase')]
    exact ⟨h.phase, h.held, h.smooth.of_phaseViolation⟩

theorem get (h : s.Agree t) (hs : s.Faithful order filter) (ht : t.Faithful order filter')
    (key : K) : (s.step (.get key)).Agree (t.step (.get key)) := by
  by_cases hphase : s.index.phase = .readable
  · obtain ⟨found, caches, hget, _⟩ := hs.get_answer hphase key
    obtain ⟨found', caches', hget', _⟩ := ht.get_answer (h.phase.trans hphase) key
    rw [step_get_ok hget, step_get_ok hget']
    exact ⟨h.phase, h.held, h.smooth⟩
  · have hphase' : t.index.phase ≠ .readable := fun heq => hphase (h.phase.symm.trans heq)
    rw [step_get_error (Index.get_of_ne_readable hphase),
      step_get_error (Index.get_of_ne_readable hphase')]
    exact ⟨h.phase, h.held, h.smooth.of_phaseViolation⟩

theorem step (h : s.Agree t) (hs : s.Faithful order filter) (ht : t.Faithful order filter')
    (operation : Operation K V) (hsmooth : (s.step operation).Smooth) :
    (s.step operation).Agree (t.step operation) := by
  cases operation with
  | put key value => exact h.put hs ht key value hsmooth
  | get key => exact h.get hs ht key
  | makeReadable => exact ⟨rfl, h.held, h.smooth⟩
  | makeWritable => exact ⟨rfl, h.held, h.smooth⟩
  | makeWritableAndClear => exact ⟨rfl, rfl, h.smooth⟩

theorem run (h : s.Agree t) (hs : s.Faithful order filter) (ht : t.Faithful order filter')
    (operations : List (Operation K V)) (hsmooth : (s.run operations).Smooth) :
    (s.run operations).Agree (t.run operations) := by
  induction operations generalizing s t with
  | nil => exact h
  | cons operation rest ih =>
    have hrest : ((s.step operation).run rest).Smooth := hsmooth
    exact ih (h.step hs ht operation hrest.of_run) (hs.step operation) (ht.step operation) hrest

end Agree

theorem Faithful.get_of_smooth (h : s.Faithful order filter) (hsmooth : s.Smooth)
    (hphase : s.index.phase = .readable) (key : K) :
    ∃ found, (s.index.get key).1 = .ok found ∧ ∀ value, value ∈ found ↔
      filter.accepts key = true ∧
        ∃ lower, (lower, value) ∈ s.held ∧ Reaches order.successors lower key := by
  obtain ⟨found, caches, hget, hsound, hcomplete⟩ := h.get_answer hphase key
  refine ⟨found, congrArg Prod.fst hget, fun value => ⟨hsound value, ?_⟩⟩
  rintro ⟨haccepts, lower, hheld, hreaches⟩
  exact hcomplete lower value hheld (h.safe_of_held hsmooth hheld) hreaches haccepts

variable [Quotable K]

/-- When no put has run into a cycle, what is got for a key that can be queried are the values
held at or below it, each once, and for any other key there are none. -/
theorem get_eq_union_of_smooth (hindex : index.Initial order) (operations : List (Operation K V))
    (hsmooth : ((start index).run operations).Smooth)
    (hphase : ((start index).run operations).index.phase = .readable) (key : K) :
    let s := (start index).run operations
    ∃ found, (s.index.get key).1 = .ok found ∧ found.toList.Nodup ∧
      (∀ value, value ∈ found ↔ index.filter.accepts key = true ∧
        ∃ lower, (lower, value) ∈ s.held ∧ Reaches order.successors lower key) ∧
      (index.filter.accepts key = false → found = ∅) ∧
      (index.filter.accepts key = true → s.index.kindOf? key = none → found = ∅ ∧
        ∀ lower value, (lower, value) ∈ s.held → ¬ Reaches order.successors lower key) ∧
      ∀ other : Index K V, other.Initial order →
        (∀ k, other.filter.accepts k = index.filter.accepts k) →
        let t := (start other).run operations
        t.Smooth ∧ t.held = s.held ∧ ∃ found', (t.index.get key).1 = .ok found' ∧
          ∀ value, value ∈ found' ↔ value ∈ found := by
  intro s
  have hs : s.Faithful order index.filter := (faithful_start hindex).run operations
  obtain ⟨found, hget, hfound⟩ := hs.get_of_smooth hsmooth hphase key
  have hempty : (∀ value, value ∉ found) → found = ∅ := by
    intro hnone
    exact OrderedSet.ext (List.eq_nil_iff_forall_not_mem.2 hnone)
  refine ⟨found, hget, found.nodup, hfound, ?_, ?_, ?_⟩
  · intro hrejects
    refine hempty fun value hvalue => ?_
    rw [hrejects] at hfound
    exact absurd ((hfound value).1 hvalue).1 Bool.false_ne_true
  · intro haccepts hunmet
    have hnone : ∀ lower value, (lower, value) ∈ s.held →
        ¬ Reaches order.successors lower key := by
      intro lower value hheld hreaches
      have hsafe := hs.safe_of_held hsmooth hheld
      rw [hs.kindOf?_eq_query hheld hsafe hreaches haccepts] at hunmet
      cases hunmet
    refine ⟨hempty fun value hvalue => ?_, hnone⟩
    obtain ⟨_, lower, hheld, hreaches⟩ := (hfound value).1 hvalue
    exact hnone lower value hheld hreaches
  · intro other hother hfilter t
    have ht : t.Faithful order other.filter := (faithful_start hother).run operations
    have hstart : (start index).Agree (start other) :=
      ⟨hother.phase_eq.trans hindex.phase_eq.symm, rfl, fun _ _ => List.not_mem_nil⟩
    have hagree : s.Agree t :=
      hstart.run (faithful_start hindex) (faithful_start hother) operations hsmooth
    obtain ⟨found', hget', hfound'⟩ :=
      ht.get_of_smooth hagree.smooth (hagree.phase.trans hphase) key
    refine ⟨hagree.smooth, hagree.held, found', hget', fun value => ?_⟩
    rw [hfound', hfound, hfilter, hagree.held]

theorem get_eq_union_of_smooth_diamond :
    ∃ index : Index Int Nat, Index.ofKeys KeyOrder.diamond [2, 4] = .ok index ∧
      let s := (start index).run (Operation.puts [(1, 10), (3, 30)] ++ [.makeReadable])
      s.Smooth ∧ s.index.phase = .readable ∧
        ∃ found, (s.index.get 4).1 = .ok found ∧ ∀ value, value ∈ found ↔ value = 10 ∨ value = 30 := by
  obtain ⟨index, hmade⟩ : ∃ index : Index Int Nat, Index.ofKeys KeyOrder.diamond [2, 4] = .ok index :=
    Index.ofKeys_of_safe fun key _ => KeyOrder.safe_diamond key
  have hindex : index.Initial KeyOrder.diamond := .ofKeys hmade
  obtain ⟨hheld, hsmooth, hphase⟩ := (faithful_start hindex).run_batch (fun _ _ => List.not_mem_nil)
    hindex.phase_eq [(1, 10), (3, 30)] fun entry _ => KeyOrder.safe_diamond entry.1
  change _ = [(3, 30), (1, 10)] at hheld
  refine ⟨index, hmade, hsmooth, hphase, ?_⟩
  obtain ⟨found, hget, _, hfound, _⟩ := get_eq_union_of_smooth hindex _ hsmooth hphase 4
  refine ⟨found, hget, fun value => ?_⟩
  have haccepts : index.filter.accepts 4 = true := (Index.accepts_of_ofKeys hmade 4).2 (by decide)
  have hlow : Reaches KeyOrder.diamond.successors 1 4 := .head (b := 2) (by decide) (.single (by decide))
  have hside : Reaches KeyOrder.diamond.successors 3 4 := .single (by decide)
  rw [hfound, hheld]
  constructor
  · rintro ⟨_, lower, hmem, _⟩
    simp only [List.mem_cons, Prod.mk.injEq, List.not_mem_nil, or_false] at hmem
    omega
  · rintro (rfl | rfl)
    · exact ⟨haccepts, 1, by decide, hlow⟩
    · exact ⟨haccepts, 3, by decide, hside⟩

/-- Whatever puts have run into cycles: a put at a safe key succeeds, and its value is got above
the key. Whatever is got or stored was put with success, so that a put that fails leaves its
value nowhere. -/
theorem cycles_stay_contained (hindex : index.Initial order) (operations : List (Operation K V)) :
    let s := (start index).run operations
    (∀ key value, s.index.phase = .writable → order.Safe key →
      (s.index.put key value).1 = .ok () ∧ (key, value) ∈ (s.step (.put key value)).held) ∧
    (∀ lower key value, (lower, value) ∈ s.held → order.Safe lower →
      Reaches order.successors lower key → index.filter.accepts key = true →
      s.index.phase = .readable → ∃ found, (s.index.get key).1 = .ok found ∧ value ∈ found) ∧
    (∀ key found, (s.index.get key).1 = .ok found → ∀ value ∈ found,
      ∃ lower, (lower, value) ∈ s.held ∧ Reaches order.successors lower key) ∧
    (∀ n, ∀ value ∈ (s.index.arena.node n).values, ∃ key, (key, value) ∈ s.held) ∧
    (∀ key value fault after, s.index.put key value = (.error fault, after) →
      (s.step (.put key value)).held = s.held ∧ after.caches = s.index.caches ∧
        ∀ n, (after.arena.node n).values = (s.index.arena.node n).values) ∧
    ∀ key, s.index.phase = .readable → index.filter.accepts key = false →
      (s.index.get key).1 = .ok ∅ := by
  intro s
  have hs : s.Faithful order index.filter := (faithful_start hindex).run operations
  refine ⟨?safe, ?complete, ?sound, ?stored, ?failed, ?rejected⟩
  case safe =>
    intro key value hphase hsafe
    obtain ⟨after, hput⟩ := hs.put_ok hphase hsafe
    refine ⟨congrArg Prod.fst hput, ?_⟩
    rw [step_put_ok hput]
    exact List.mem_cons_self
  case complete =>
    intro lower key value hheld hsafe hreaches haccepts hphase
    obtain ⟨found, caches, hget, _, hcomplete⟩ := hs.get_answer hphase key
    exact ⟨found, congrArg Prod.fst hget, hcomplete lower value hheld hsafe hreaches haccepts⟩
  case sound =>
    intro key found hget value hvalue
    by_cases hphase : s.index.phase = .readable
    · obtain ⟨found', caches, hget', hsound, _⟩ := hs.get_answer hphase key
      rw [hget', Except.ok.injEq] at hget
      exact (hsound value (hget ▸ hvalue)).2
    · rw [Index.get_of_ne_readable hphase] at hget
      cases hget
  case stored =>
    intro n value hvalue
    obtain ⟨_, key, _, hheld⟩ := hs.holds.values.1 hvalue
    exact ⟨key, hheld⟩
  case failed =>
    intro key value fault after hput
    refine ⟨by rw [step_put_error hput], ?_⟩
    by_cases hphase : s.index.phase = .writable
    · obtain ⟨_, arena, rfl, hvalues⟩ := hs.put_error hphase hput
      exact ⟨rfl, hvalues⟩
    · rw [Index.put_of_ne_writable hphase] at hput
      obtain ⟨_, rfl⟩ := Prod.mk.inj hput
      exact ⟨rfl, fun _ => rfl⟩
  case rejected =>
    intro key hphase hrejects
    obtain ⟨found, caches, hget, hsound, _⟩ := hs.get_answer hphase key
    rw [hget]
    refine congrArg Except.ok (OrderedSet.ext (List.eq_nil_iff_forall_not_mem.2 ?_))
    intro value hvalue
    rw [hrejects] at hsound
    exact absurd (hsound value hvalue).1 Bool.false_ne_true

theorem cycles_stay_contained_knot :
    let index : Index Int Nat := .ofPredicate KeyOrder.knot fun _ => true
    let s := (start index).run [.put 1 10, .put 3 30, .makeReadable]
    s.held = [(3, 30)] ∧ ∃ found, (s.index.get 4).1 = .ok found ∧ 30 ∈ found ∧ 10 ∉ found := by
  intro index s
  have hindex : index.Initial KeyOrder.knot := .ofPredicate fun _ => true
  have hstart := faithful_start hindex
  rcases hput : index.put 1 10 with ⟨fault | _, after⟩
  · obtain ⟨_, arena, rfl, _⟩ := hstart.put_error rfl hput
    have hbefore := hstart.step (.put 1 10)
    rw [step_put_error hput] at hbefore
    obtain ⟨last, hlast⟩ :
        ∃ last, Index.put { index with arena := arena } 3 30 = (.ok (), { index with arena := last }) :=
      hbefore.put_ok rfl KeyOrder.safe_knot
    have hheld : s.held = [(3, 30)] := by
      change ((start index).run _).held = _
      rw [run_cons, step_put_error hput, run_cons, step_put_ok hlast]
      rfl
    obtain ⟨_, hcomplete, hsound, _⟩ :=
      cycles_stay_contained hindex [.put 1 10, .put 3 30, .makeReadable]
    have hmem : (3, 30) ∈ s.held := by
      rw [hheld]
      exact List.mem_cons_self
    obtain ⟨found, hget, hfound⟩ :=
      hcomplete 3 4 30 hmem KeyOrder.safe_knot (.single (by decide)) rfl rfl
    refine ⟨hheld, found, hget, hfound, fun hten => ?_⟩
    obtain ⟨lower, hlower, _⟩ := hsound 4 found hget 10 hten
    change (lower, 10) ∈ s.held at hlower
    rw [hheld, List.mem_singleton, Prod.mk.injEq] at hlower
    exact absurd hlower.2 (by decide)
  · exact absurd (hstart.safe_of_put_ok (fun _ _ => List.not_mem_nil) hput)
      (KeyOrder.not_safe_of_onCycle .refl KeyOrder.onCycle_knot)

end Downset.Session
