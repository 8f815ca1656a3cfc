import Downset.Index.Diagram

/-!
# Histories of an index

An index is made in one of two ways and then used by any number of operations in any order. A
session is an index in use, together with a record of what came of its puts and gets.
-/

namespace Downset

variable {K V : Type}

/-- The index was made over the order and has not been used yet. -/
inductive Index.Initial [DecidableEq K] [Quotable K] (order : KeyOrder K) : Index K V → Prop
  | ofPredicate (holds : K → Bool) : Initial order (.ofPredicate order holds)
  | ofKeys {keys : List K} {index : Index K V} (made : Index.ofKeys order keys = .ok index) :
      Initial order index
  | withRender {index : Index K V} (initial : Initial order index) (render : K → String) :
      Initial order (index.withRender render)

/-- What may be asked of an index. -/
inductive Operation (K V : Type)
  | put (key : K) (value : V)
  | get (key : K)
  | makeReadable
  | makeWritable
  | makeWritableAndClear

def Operation.puts (entries : List (K × V)) : List (Operation K V) :=
  entries.map fun entry => .put entry.1 entry.2

theorem Operation.puts_cons {entry : K × V} {rest : List (K × V)} :
    puts (entry :: rest) = .put entry.1 entry.2 :: puts rest := rfl

structure Session (K V : Type) where
  index : Index K V
  /-- The puts that succeeded since all values were last forgotten, or since the beginning. -/
  held : List (K × V)
  /-- What was answered to the puts and gets that failed. -/
  faults : List Fault

namespace Session

def start (index : Index K V) : Session K V := ⟨index, [], []⟩

/-- No put ran into a cycle so far. -/
def Smooth (s : Session K V) : Prop := ∀ name key, Fault.cycleDetected name key ∉ s.faults

theorem Smooth.of_phaseViolation {s : Session K V} {expected actual : Phase} (h : s.Smooth) :
    ({ s with faults := .phaseViolation expected actual :: s.faults } : Session K V).Smooth := by
  intro name key hmem
  rcases List.mem_cons.1 hmem with heq | hmem
  · cases heq
  · exact h name key hmem

variable [DecidableEq K] [DecidableEq V]

def step (s : Session K V) : Operation K V → Session K V
  | .put key value =>
    match s.index.put key value with
    | (.ok (), index) => { s with index := index, held := (key, value) :: s.held }
    | (.error fault, index) => { s with index := index, faults := fault :: s.faults }
  | .get key =>
    match s.index.get key with
    | (.ok _, index) => { s with index := index }
    | (.error fault, index) => { s with index := index, faults := fault :: s.faults }
  | .makeReadable => { s with index := s.index.makeReadable }
  | .makeWritable => { s with index := s.index.makeWritable }
  | .makeWritableAndClear => { s with index := s.index.makeWritableAndClear, held := [] }

section Step

variable {s : Session K V} {index : Index K V} {key : K} {value : V} {found : OrderedSet V}
  {fault : Fault}

theorem step_put_ok (h : s.index.put key value = (.ok (), index)) :
    s.step (.put key value) = { s with index := index, held := (key, value) :: s.held } := by
  simp only [step, h]

theorem step_put_error (h : s.index.put key value = (.error fault, index)) :
    s.step (.put key value) = { s with index := index, faults := fault :: s.faults } := by
  simp only [step, h]

theorem step_get_ok (h : s.index.get key = (.ok found, index)) :
    s.step (.get key) = { s with index := index } := by
  simp only [step, h]

theorem step_get_error (h : s.index.get key = (.error fault, index)) :
    s.step (.get key) = { s with index := index, faults := fault :: s.faults } := by
  simp only [step, h]

theorem index_step_put : (s.step (.put key value)).index = (s.index.put key value).2 := by
  rcases hput : s.index.put key value with ⟨_ | _, after⟩
  · rw [step_put_error hput]
  · rw [step_put_ok hput]

theorem index_step_get : (s.step (.get key)).index = (s.index.get key).2 := by
  rcases hget : s.index.get key with ⟨_ | _, after⟩
  · rw [step_get_error hget]
  · rw [step_get_ok hget]

end Step

/-- What becomes of the index depends on the index alone. -/
theorem index_step_congr {s t : Session K V} (h : s.index = t.index) (operation : Operation K V) :
    (s.step operation).index = (t.step operation).index := by
  cases operation with
  | put key value => rw [index_step_put, index_step_put, h]
  | get key => rw [index_step_get, index_step_get, h]
  | makeReadable => exact congrArg Index.makeReadable h
  | makeWritable => exact congrArg Index.makeWritable h
  | makeWritableAndClear => exact congrArg Index.makeWritableAndClear h

def run (s : Session K V) (operations : List (Operation K V)) : Session K V :=
  operations.foldl step s

theorem run_cons {s : Session K V} {operation : Operation K V} {rest : List (Operation K V)} :
    s.run (operation :: rest) = (s.step operation).run rest := rfl

theorem run_append {s : Session K V} {before rest : List (Operation K V)} :
    s.run (before ++ rest) = (s.run before).run rest :=
  List.foldl_append

theorem index_run_congr {s t : Session K V} (h : s.index = t.index)
    (operations : List (Operation K V)) : (s.run operations).index = (t.run operations).index := by
  induction operations generalizing s t with
  | nil => exact h
  | cons operation rest ih => exact ih (index_step_congr h operation)

theorem mem_faults_step {s : Session K V} {fault : Fault} (operation : Operation K V)
    (h : fault ∈ s.faults) : fault ∈ (s.step operation).faults := by
  cases operation with
  | put key value =>
    rcases hput : s.index.put key value with ⟨_ | _, index⟩
    · rw [step_put_error hput]
      exact List.mem_cons_of_mem _ h
    · rw [step_put_ok hput]
      exact h
  | get key =>
    rcases hget : s.index.get key with ⟨_ | _, index⟩
    · rw [step_get_error hget]
      exact List.mem_cons_of_mem _ h
    · rw [step_get_ok hget]
      exact h
  | makeReadable => exact h
  | makeWritable => exact h
  | makeWritableAndClear => exact h

theorem mem_faults_run {s : Session K V} {fault : Fault} (operations : List (Operation K V))
    (h : fault ∈ s.faults) : fault ∈ (s.run operations).faults := by
  induction operations generalizing s with
  | nil => exact h
  | cons operation rest ih => exact ih (mem_faults_step operation h)

theorem Smooth.of_step {s : Session K V} {operation : Operation K V}
    (h : (s.step operation).Smooth) : s.Smooth :=
  fun name key hmem => h name key (mem_faults_step operation hmem)

theorem Smooth.of_run {s : Session K V} {operations : List (Operation K V)}
    (h : (s.run operations).Smooth) : s.Smooth :=
  fun name key hmem => h name key (mem_faults_run operations hmem)

end Session

end Downset
