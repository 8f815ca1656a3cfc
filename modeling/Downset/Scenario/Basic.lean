import Downset.Json.Document

/-!
# Scenarios and reports

A scenario declares an order of text keys, says which keys can be queried, and gives the
steps to take on an index over that order. Whatever it leaves out is empty, and if it says
nothing about queries, all keys can be queried. A run of it reports the keys in topological
order, unless the order has a cycle; the answer of each `get`; and each drawing.
-/

namespace Downset

inductive Step
  | put (key : Option String) (value : String)
  | get (key : Option String)
  | makeReadable
  | makeWritable
  | makeWritableAndClear
  | dot
  deriving DecidableEq, Repr, Inhabited

structure Scenario where
  /-- Chains: every key of a row is below every later key of the row. -/
  rows : List (List String) := []
  /-- Pairs of a key and a key directly above it. -/
  edges : List (String × String) := []
  /-- The keys that can be queried, if they are listed. -/
  query : Option (List String) := none
  /-- If no keys are listed, those that end in this text can be queried. -/
  querySuffix : Option String := none
  steps : List Step := []
  deriving DecidableEq, Repr, Inhabited

open Json

structure QueryResult where
  key : String
  values : List String
  deriving DecidableEq, Repr, Inhabited

/-- What a run of a scenario reports. -/
structure Report where
  /-- All keys, the lowest first, if the order has no cycle. -/
  topologicalOrder : Option (List String)
  results : List QueryResult := []
  dots : List String := []
  deriving DecidableEq, Repr, Inhabited

def QueryResult.toDocument (result : QueryResult) : Document :=
  .ofFields [("key", .text result.key), ("values", .texts result.values)]

namespace Report

/-- The document of a report. The drawings are left out if there are none. -/
def toDocument (report : Report) : Document :=
  .ofFields ([
    ("topological_order", report.topologicalOrder.elim .null Document.texts),
    ("results", .array (report.results.map QueryResult.toDocument))] ++
    if report.dots.isEmpty then [] else [("dots", .texts report.dots)])

def pretty (report : Report) : String := String.ofList report.toDocument.pretty

end Report

end Downset
