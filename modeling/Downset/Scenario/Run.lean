import Downset.Index.Diagram
import Downset.Poset.Normalize
import Downset.Poset.Order
import Downset.Scenario.Basic

/-!
# Running a scenario

The order of a scenario has the rows and then the edges, normalised. The steps are taken in
turn on an index over it. The first step that fails ends the run with its fault and without
a report.
-/

namespace Downset.Scenario

def order (scenario : Scenario) : Poset String :=
  ((Poset.ofRows scenario.rows).addEdges scenario.edges).normalize

def hasSuffix (suffix key : String) : Bool := suffix.toList.isSuffixOf key.toList

/-- The index over the order of a scenario, with nothing put yet. -/
def index (scenario : Scenario) : Except Fault (Index String String) := do
  let order := scenario.order.toKeyOrder
  let index ←
    match scenario.query, scenario.querySuffix with
    | some keys, _ => Index.ofKeys order keys
    | none, some suffix => pure (Index.ofPredicate order (hasSuffix suffix))
    | none, none => pure (Index.ofPredicate order fun _ => true)
  return index.withRender id

/-- The key of a request, which must not be null. -/
def requireKey (request : Request) : Option String → Except Fault String
  | some key => .ok key
  | none => .error (.nullKey request)

/-- Takes one step, with the index as it is and what was reported so far. -/
def runStep (state : Index String String × Report) (step : Step) :
    Except Fault (Index String String × Report) :=
  let (index, report) := state
  match step with
  | .put key value => do
    let key ← requireKey .put key
    let (done, index) := index.put key value
    done
    return (index, report)
  | .get key => do
    let key ← requireKey .get key
    let (found, index) := index.get key
    let values ← found
    return (index, { report with results := report.results ++ [⟨key, values.toList⟩] })
  | .makeReadable => .ok (index.makeReadable, report)
  | .makeWritable => .ok (index.makeWritable, report)
  | .makeWritableAndClear => .ok (index.makeWritableAndClear, report)
  | .dot => .ok (index, { report with dots := report.dots ++ [index.toDot] })

/-- What a scenario reports, or the first fault. -/
def run (scenario : Scenario) : Except Fault Report := do
  let index ← scenario.index
  let report : Report := { topologicalOrder := scenario.order.topologicalOrder.toOption }
  let state ← scenario.steps.foldlM runStep (index, report)
  return state.2

end Downset.Scenario
