import Downset.Proofs.Index.History
import Downset.Proofs.Poset.Chains
import Downset.Scenario.Run
import Mathlib.Data.Set.Defs

/-!
# What a scenario should report

The reference knows of no normalised order, no nodes and no caches. It keeps the phase and the list
of what was put since the values were last forgotten, and it answers a key with the set of the
values put at the keys that are below it in the closure of what the scenario declares. Of a drawing
it says no more than which state of the index is drawn.
-/

namespace Downset

/-- What a step asks of an index. Nothing is asked without a key or for a drawing. -/
def Step.operation? : Step → Option (Operation String String)
  | put key value => key.map (.put · value)
  | get key => key.map .get
  | makeReadable => some .makeReadable
  | makeWritable => some .makeWritable
  | makeWritableAndClear => some .makeWritableAndClear
  | dot => none

namespace Index

def after (index : Index String String) (steps : List Step) : Index String String :=
  ((Session.start index).run (steps.filterMap Step.operation?)).index

/-- For each step that asks for a drawing, in turn, that of the index after the steps before. -/
def drawings (index : Index String String) (steps : List Step) : List String :=
  (steps.idxsOf .dot).map fun place => (index.after (steps.take place)).toDot

variable {index : Index String String} {before rest : List Step}

theorem after_append : index.after (before ++ rest) = (index.after before).after rest := by
  have hsame : ((Session.start index).run (before.filterMap Step.operation?)).index =
      (Session.start (index.after before)).index := rfl
  rw [after, List.filterMap_append]
  exact (congrArg Session.index Session.run_append).trans (Session.index_run_congr hsame _)

theorem drawings_append : index.drawings (before ++ rest) =
    index.drawings before ++ (index.after before).drawings rest := by
  have hbefore : ∀ place ∈ before.idxsOf .dot,
      (index.after ((before ++ rest).take place)).toDot =
        (index.after (before.take place)).toDot := by
    intro place hplace
    have hlt := List.lt_add_of_mem_idxsOf place hplace
    rw [List.take_append_of_le_length (Nat.le_of_lt hlt)]
  have hrest : ∀ place, (index.after ((before ++ rest).take (place + before.length))).toDot =
      ((index.after before).after (rest.take place)).toDot := by
    intro place
    rw [Nat.add_comm, List.take_length_add_append, after_append]
  unfold drawings
  rw [List.idxsOf_append, Nat.zero_add, List.idxsOf_start (s := before.length), List.map_append,
    List.map_map, List.map_congr_left hbefore]
  exact congrArg _ (List.map_congr_left fun place _ => hrest place)

end Index

namespace Scenario

/-- The first key comes before the second in some row, or some edge leads from it to the second. -/
def Declares (scenario : Scenario) : String → String → Prop :=
  Poset.Declares scenario.rows scenario.edges

/-- No key is declared to be below itself, not even by way of other keys. -/
def Acyclic (scenario : Scenario) : Prop := ∀ key, ¬ Relation.TransGen scenario.Declares key key

theorem acyclic_of_rank {scenario : Scenario} (rank : String → Nat)
    (hrank : ∀ pair ∈ scenario.rows.flatMap Poset.chainPairs ++ scenario.edges,
      rank pair.1 < rank pair.2) : scenario.Acyclic := by
  have hstep : ∀ lower upper, scenario.Declares lower upper → rank lower < rank upper :=
    fun lower upper h => hrank (lower, upper) (Poset.declares_iff.1 h)
  have hless : ∀ lower upper, Relation.TransGen scenario.Declares lower upper →
      rank lower < rank upper := by
    intro lower upper h
    induction h with
    | single step => exact hstep _ _ step
    | tail _ step ih => exact ih.trans (hstep _ _ step)
  exact fun key hcycle => Nat.lt_irrefl _ (hless key key hcycle)

def Mentions (scenario : Scenario) (key : String) : Prop :=
  key ∈ scenario.rows.flatten ∨ ∃ edge ∈ scenario.edges, key = edge.1 ∨ key = edge.2

/-- The listed keys can be queried if there is a list; else those with the suffix, if there is one;
else all. -/
def Queryable (scenario : Scenario) (key : String) : Prop :=
  match scenario.query, scenario.querySuffix with
  | some keys, _ => key ∈ keys
  | none, some suffix => suffix.toList <:+ key.toList
  | none, none => True

/-- The values that were put at or below a key that can be queried. -/
def combined (scenario : Scenario) (held : List (String × String)) (key : String) : Set String :=
  {value | scenario.Queryable key ∧
    ∃ lower, (lower, value) ∈ held ∧ Relation.ReflTransGen scenario.Declares lower key}

/-- What the reference keeps while the steps are taken, and what it has to report. -/
structure Reference where
  phase : Phase := .writable
  held : List (String × String) := []
  answers : List (String × Set String) := []
  drawings : Nat := 0

/-- Takes one step. A null key is found before a wrong phase. -/
def Reference.step (scenario : Scenario) (reference : Reference) : Step → Except Fault Reference
  | .put none _ => .error (.nullKey .put)
  | .put (some key) value =>
    match reference.phase with
    | .writable => .ok { reference with held := (key, value) :: reference.held }
    | .readable => .error (.phaseViolation .writable .readable)
  | .get none => .error (.nullKey .get)
  | .get (some key) =>
    match reference.phase with
    | .readable =>
      let answer := (key, scenario.combined reference.held key)
      .ok { reference with answers := reference.answers ++ [answer] }
    | .writable => .error (.phaseViolation .readable .writable)
  | .makeReadable => .ok { reference with phase := .readable }
  | .makeWritable => .ok { reference with phase := .writable }
  | .makeWritableAndClear => .ok { reference with phase := .writable, held := [] }
  | .dot => .ok { reference with drawings := reference.drawings + 1 }

def reference (scenario : Scenario) : Except Fault Reference :=
  scenario.steps.foldlM (Reference.step scenario) {}

/-- The result names the key and lists its values once each. -/
structure Answers (answer : String × Set String) (result : QueryResult) : Prop where
  key : result.key = answer.1
  nodup : result.values.Nodup
  mem_iff : ∀ value, value ∈ result.values ↔ value ∈ answer.2

/-- The report has a result for each answer, the drawing of the index for each step that asks for
one, and the declared keys in an order in which what is declared to be below comes before. -/
structure Agrees (scenario : Scenario) (report : Report) (reference : Reference) : Prop where
  results : List.Forall₂ Answers reference.answers report.results
  dots : report.dots.length = reference.drawings
  drawn : ∃ index, scenario.index = .ok index ∧ report.dots = index.drawings scenario.steps
  sorted : ∃ order, report.topologicalOrder = some order ∧ order.Nodup ∧
    (∀ key, key ∈ order ↔ scenario.Mentions key) ∧
    ∀ lower upper, scenario.Declares lower upper → [lower, upper].Sublist order

/-- Both fail with the same fault, or both succeed with results that belong together. -/
inductive Follows {α β : Type} (related : α → β → Prop) : Except Fault α → Except Fault β → Prop
  | fails (fault : Fault) : Follows related (.error fault) (.error fault)
  | succeeds {result : α} {expected : β} (h : related result expected) :
      Follows related (.ok result) (.ok expected)

namespace Follows

variable {α β γ δ σ : Type} {related : α → β → Prop} {related' : γ → δ → Prop}
  {result : Except Fault α} {expected : Except Fault β}

theorem of_ok {reference : β} (h : Follows related result (.ok reference)) :
    ∃ found, result = .ok found ∧ related found reference := by
  cases h with
  | succeeds h => exact ⟨_, rfl, h⟩

theorem bind {f : α → Except Fault γ} {g : β → Except Fault δ} (h : Follows related result expected)
    (hnext : ∀ found reference, result = .ok found → related found reference →
      Follows related' (f found) (g reference)) :
    Follows related' (result >>= f) (expected >>= g) := by
  cases h with
  | fails fault => exact .fails fault
  | succeeds h => exact hnext _ _ rfl h

theorem foldlM {f : α → σ → Except Fault α} {g : β → σ → Except Fault β}
    (hstep : ∀ state reference step, related state reference →
      Follows related (f state step) (g reference step))
    (steps : List σ) {state : α} {reference : β} (h : related state reference) :
    Follows related (steps.foldlM f state) (steps.foldlM g reference) := by
  induction steps generalizing state reference with
  | nil => exact .succeeds h
  | cons step rest ih =>
    rw [List.foldlM_cons, List.foldlM_cons]
    exact (hstep state reference step h).bind fun _ _ _ h => ih h

end Follows

end Scenario

end Downset
