import Downset.Proofs.Index.Faithful
import Downset.Proofs.Scenario.Reference

/-!
# A scenario reports what it should

If what a scenario declares has no cycle, its run and the reference go together: from the beginning,
and over every step, the index is faithful to what the reference keeps. So both come to the same
fault, or the run has a report that agrees with the reference. What is drawn at a step is the index
as the steps before have left it, with cycles or without.
-/

namespace Downset.Scenario

variable {scenario : Scenario} {filter : KeyFilter String} {index after : Index String String}
  {report : Report} {reference : Reference} {key value : String} {upper lower : String}

section Order

variable (hacyclic : scenario.Acyclic)

include hacyclic

theorem safe_of_acyclic : scenario.order.toKeyOrder.Safe key :=
  fun _ _ => Poset.not_onCycle_normalize_of_acyclic hacyclic

theorem reaches_iff_declared : Reaches scenario.order.toKeyOrder.successors lower upper ↔
    Relation.ReflTransGen scenario.Declares lower upper :=
  Poset.reaches_iff_of_acyclic hacyclic

/-- The index of a scenario is made, and its filter chooses the keys as the scenario says. -/
theorem exists_index : ∃ index, scenario.index = .ok index ∧
    index.Initial scenario.order.toKeyOrder ∧
    ∀ key, index.filter.accepts key = true ↔ scenario.Queryable key := by
  unfold Scenario.index Queryable
  cases scenario.query with
  | some keys =>
    obtain ⟨index, hmade⟩ : ∃ index : Index String String,
        Index.ofKeys scenario.order.toKeyOrder keys = .ok index :=
      Index.ofKeys_of_safe fun _ _ => safe_of_acyclic hacyclic
    refine ⟨index.withRender id, ?_, .withRender (.ofKeys hmade) id, fun key => ?_⟩
    · change (Index.ofKeys scenario.order.toKeyOrder keys >>= fun index =>
        pure (index.withRender id)) = _
      rw [hmade]
      rfl
    · exact Index.accepts_of_ofKeys hmade key
  | none =>
    cases scenario.querySuffix with
    | some suffix =>
      refine ⟨_, rfl, .withRender (.ofPredicate (hasSuffix suffix)) id, fun key => ?_⟩
      exact List.isSuffixOf_iff_suffix
    | none =>
      exact ⟨_, rfl, .withRender (.ofPredicate fun _ => true) id,
        fun key => iff_of_true rfl trivial⟩

end Order

/-- The index holds what the reference keeps and can be queried where the scenario says, and what
was reported agrees with the reference. -/
structure Simulates (scenario : Scenario) (filter : KeyFilter String)
    (state : Index String String × Report) (reference : Reference) : Prop where
  faithful : Session.Faithful scenario.order.toKeyOrder filter ⟨state.1, reference.held, []⟩
  accepts_iff : ∀ key, filter.accepts key = true ↔ scenario.Queryable key
  phase : state.1.phase = reference.phase
  results : List.Forall₂ Answers reference.answers state.2.results
  dots : state.2.dots.length = reference.drawings
  sorted : state.2.topologicalOrder = scenario.order.topologicalOrder.toOption

theorem runStep_put {result : Except Fault Unit} (h : index.put key value = (result, after)) :
    runStep (index, report) (.put (some key) value) = result.map fun _ => (after, report) := by
  simp only [runStep, requireKey, bind, Except.bind, h]
  cases result <;> rfl

theorem runStep_get {found : Except Fault (OrderedSet String)}
    (h : index.get key = (found, after)) :
    runStep (index, report) (.get (some key)) = found.map fun values =>
      (after, { report with results := report.results ++ [⟨key, values.toList⟩] }) := by
  simp only [runStep, requireKey, bind, Except.bind, h]
  cases found <;> rfl

section Drawings

variable {step : Step} {final : Index String String × Report}

theorem runStep_drawn (h : runStep (index, report) step = .ok final) :
    final.1 = index.after [step] ∧ final.2.dots = report.dots ++ index.drawings [step] := by
  cases step with
  | put key value =>
    cases key with
    | none => cases h
    | some key =>
      rcases hput : index.put key value with ⟨_ | _, after⟩
      · rw [runStep_put hput] at h
        cases h
      · rw [runStep_put hput] at h
        cases h
        have hstep := Session.step_put_ok (s := .start index) hput
        exact ⟨(congrArg Session.index hstep).symm, (List.append_nil _).symm⟩
  | get key =>
    cases key with
    | none => cases h
    | some key =>
      rcases hget : index.get key with ⟨_ | _, after⟩
      · rw [runStep_get hget] at h
        cases h
      · rw [runStep_get hget] at h
        cases h
        have hstep := Session.step_get_ok (s := .start index) hget
        exact ⟨(congrArg Session.index hstep).symm, (List.append_nil _).symm⟩
  | makeReadable | makeWritable | makeWritableAndClear =>
    cases h
    exact ⟨rfl, (List.append_nil _).symm⟩
  | dot =>
    cases h
    exact ⟨rfl, rfl⟩

/-- What is drawn at a step is the index as the steps before have left it. -/
theorem foldlM_runStep_drawn {steps : List Step}
    (h : steps.foldlM runStep (index, report) = .ok final) :
    final.1 = index.after steps ∧ final.2.dots = report.dots ++ index.drawings steps := by
  induction steps generalizing index report with
  | nil =>
    cases h
    exact ⟨rfl, (List.append_nil _).symm⟩
  | cons step rest ih =>
    rw [List.foldlM_cons] at h
    rcases hstep : runStep (index, report) step with fault | ⟨next, report'⟩
    · rw [hstep] at h
      cases h
    · rw [hstep] at h
      obtain ⟨rfl, hdots⟩ := runStep_drawn hstep
      obtain ⟨hindex, hrest⟩ := ih h
      rw [← List.singleton_append, Index.after_append, Index.drawings_append, ← List.append_assoc]
      exact ⟨hindex, hrest.trans (congrArg (· ++ _) hdots)⟩

end Drawings

namespace Simulates

variable (h : scenario.Simulates filter (index, report) reference)
  (hacyclic : scenario.Acyclic)

include h hacyclic

theorem put : Follows (scenario.Simulates filter)
    (runStep (index, report) (.put (some key) value))
    (reference.step scenario (.put (some key) value)) := by
  unfold Reference.step
  cases hphase : reference.phase with
  | writable =>
    obtain ⟨arena, hput⟩ : ∃ arena,
        index.put key value = (.ok (), { index with arena := arena }) :=
      h.faithful.put_ok (h.phase.trans hphase) (safe_of_acyclic hacyclic)
    rw [runStep_put hput]
    have hfaithful := h.faithful.put key value
    rw [Session.step_put_ok hput] at hfaithful
    exact .succeeds
      ⟨hfaithful, h.accepts_iff, h.phase.trans hphase, h.results, h.dots, h.sorted⟩
  | readable =>
    have hactual : index.phase = .readable := h.phase.trans hphase
    have hput : index.put key value = (.error (.phaseViolation .writable index.phase), index) :=
      Index.put_of_ne_writable (by rw [hactual]; decide)
    rw [runStep_put hput, hactual]
    exact .fails _

theorem get : Follows (scenario.Simulates filter)
    (runStep (index, report) (.get (some key))) (reference.step scenario (.get (some key))) := by
  unfold Reference.step
  cases hphase : reference.phase with
  | writable =>
    have hactual : index.phase = .writable := h.phase.trans hphase
    have hget : index.get key = (.error (.phaseViolation .readable index.phase), index) :=
      Index.get_of_ne_readable (by rw [hactual]; decide)
    rw [runStep_get hget, hactual]
    exact .fails _
  | readable =>
    obtain ⟨found, caches, hget, hsound, hcomplete⟩ :=
      h.faithful.get_answer (h.phase.trans hphase) key
    change index.get key = _ at hget
    rw [runStep_get hget]
    have hfaithful := h.faithful.get key
    rw [Session.step_get_ok hget] at hfaithful
    refine .succeeds ⟨hfaithful, h.accepts_iff, h.phase.trans hphase, ?_, h.dots, h.sorted⟩
    refine List.rel_append h.results (.cons ⟨rfl, found.nodup, fun value => ?_⟩ .nil)
    constructor
    · intro hvalue
      obtain ⟨haccepts, lower, hheld, hreaches⟩ := hsound value hvalue
      exact ⟨(h.accepts_iff key).1 haccepts, lower, hheld,
        (reaches_iff_declared hacyclic).1 hreaches⟩
    · rintro ⟨hqueryable, lower, hheld, hbelow⟩
      exact hcomplete lower value hheld (safe_of_acyclic hacyclic)
        ((reaches_iff_declared hacyclic).2 hbelow) ((h.accepts_iff key).2 hqueryable)

end Simulates

theorem Simulates.step {state : Index String String × Report}
    (h : scenario.Simulates filter state reference) (hacyclic : scenario.Acyclic) (step : Step) :
    Follows (scenario.Simulates filter) (runStep state step) (reference.step scenario step) := by
  obtain ⟨index, report⟩ := state
  cases step with
  | put key value =>
    cases key with
    | none => exact .fails _
    | some key => exact h.put hacyclic
  | get key =>
    cases key with
    | none => exact .fails _
    | some key => exact h.get hacyclic
  | makeReadable =>
    exact .succeeds
      ⟨h.faithful.makeReadable, h.accepts_iff, rfl, h.results, h.dots, h.sorted⟩
  | makeWritable =>
    exact .succeeds
      ⟨h.faithful.makeWritable, h.accepts_iff, rfl, h.results, h.dots, h.sorted⟩
  | makeWritableAndClear =>
    exact .succeeds
      ⟨h.faithful.makeWritableAndClear, h.accepts_iff, rfl, h.results, h.dots, h.sorted⟩
  | dot =>
    refine .succeeds ⟨h.faithful, h.accepts_iff, h.phase, h.results, ?_, h.sorted⟩
    rw [List.length_append, h.dots]
    rfl

theorem Simulates.agrees {state : Index String String × Report}
    (h : scenario.Simulates filter state reference) (hacyclic : scenario.Acyclic)
    (hindex : scenario.index = .ok index) (hdrawn : state.2.dots = index.drawings scenario.steps) :
    scenario.Agrees state.2 reference := by
  obtain ⟨order, hsorted, horder⟩ := Poset.topologicalOrder_of_acyclic hacyclic
  refine ⟨h.results, h.dots, ⟨index, hindex, hdrawn⟩, order, ?_, horder⟩
  rw [h.sorted, Scenario.order, hsorted]
  rfl

/-- A scenario that declares no cycle fails as its reference does, or reports what it says. -/
theorem run_follows_reference (hacyclic : scenario.Acyclic) :
    Follows scenario.Agrees scenario.run scenario.reference := by
  obtain ⟨index, hindex, hinitial, hfilter⟩ := exists_index hacyclic
  have hstart : scenario.Simulates index.filter
      (index, { topologicalOrder := scenario.order.topologicalOrder.toOption }) {} :=
    ⟨Session.faithful_start hinitial, hfilter, hinitial.phase_eq, .nil, rfl, rfl⟩
  have hsteps := Follows.foldlM (fun _ _ step h => h.step hacyclic step) scenario.steps hstart
  have hreport : Follows scenario.Agrees _ (scenario.reference >>= pure) :=
    hsteps.bind fun state reference hrun h =>
      .succeeds (h.agrees hacyclic hindex (foldlM_runStep_drawn hrun).2)
  rw [bind_pure] at hreport
  unfold run
  rw [hindex]
  exact hreport

theorem run_follows_reference_branch :
    let scenario : Scenario := {
      rows := [["a", "b", "c"]]
      edges := [("b", "d")]
      query := some ["c", "d"]
      steps := [.put (some "a") "x", .dot, .put (some "c") "y", .makeReadable, .get (some "c"),
        .get (some "b"), .dot] }
    scenario.Acyclic ∧ ∃ report index values, scenario.run = .ok report ∧
      scenario.index = .ok index ∧
      report.results = [⟨"c", values⟩, ⟨"b", []⟩] ∧ "x" ∈ values ∧ "y" ∈ values ∧
      report.dots = [(index.after (scenario.steps.take 1)).toDot,
        (index.after (scenario.steps.take 6)).toDot] := by
  intro scenario
  have hacyclic : scenario.Acyclic := acyclic_of_rank (["a", "b", "c"].idxOf ·) (by decide)
  have hreference : scenario.reference = .ok {
      phase := .readable
      held := [("c", "y"), ("a", "x")]
      answers := [("c", scenario.combined [("c", "y"), ("a", "x")] "c"),
        ("b", scenario.combined [("c", "y"), ("a", "x")] "b")]
      drawings := 2 } := rfl
  have hfollows := run_follows_reference hacyclic
  rw [hreference] at hfollows
  obtain ⟨report, hrun, hagrees⟩ := hfollows.of_ok
  obtain ⟨⟨key, values⟩, rest, hfirst, hrest, hresults⟩ :=
    List.forall₂_cons_left_iff.1 hagrees.results
  obtain ⟨⟨key', values'⟩, rest', hsecond, hnone, rfl⟩ := List.forall₂_cons_left_iff.1 hrest
  cases hnone
  have hkey : key = "c" := hfirst.key
  have hkey' : key' = "b" := hsecond.key
  have hvalues' : values' = [] := by
    refine List.eq_nil_iff_forall_not_mem.2 fun value hvalue => ?_
    have hqueryable : "b" ∈ ["c", "d"] := ((hsecond.mem_iff value).1 hvalue).1
    exact absurd hqueryable (by decide)
  have hqueryable : scenario.Queryable "c" := List.mem_cons_self
  have hbelow : scenario.Declares "a" "c" := Poset.declares_iff.2 (by decide)
  obtain ⟨index, hindex, hdrawn⟩ := hagrees.drawn
  subst hkey hkey' hvalues'
  refine ⟨hacyclic, report, index, values, hrun, hindex, hresults, (hfirst.mem_iff "x").2 ?_,
    (hfirst.mem_iff "y").2 ?_, hdrawn⟩
  · exact ⟨hqueryable, "a", by decide, .single hbelow⟩
  · exact ⟨hqueryable, "c", by decide, .refl⟩

end Downset.Scenario
