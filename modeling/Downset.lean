import Downset.Arena.Aggregate
import Downset.Arena.Basic
import Downset.Arena.Walk
import Downset.CommandLine
import Downset.Digraph
import Downset.Dot
import Downset.Fault
import Downset.Index.Basic
import Downset.Index.Diagram
import Downset.Json.Document
import Downset.Json.Lexer
import Downset.KeyOrder
import Downset.Main
import Downset.Node
import Downset.OrderedSet
import Downset.Poset.Normalize
import Downset.Poset.Order
import Downset.Proofs.Arena.Checked
import Downset.Proofs.Arena.Combined
import Downset.Proofs.Arena.Consistent
import Downset.Proofs.Arena.Counting
import Downset.Proofs.Arena.Exhaustive
import Downset.Proofs.Arena.Flow
import Downset.Proofs.Arena.Freshness
import Downset.Proofs.Arena.Grown
import Downset.Proofs.Arena.Growth
import Downset.Proofs.Arena.Links
import Downset.Proofs.Arena.Reduction
import Downset.Proofs.Arena.Representation
import Downset.Proofs.Arena.Shape
import Downset.Proofs.Arena.SingleWays
import Downset.Proofs.Arena.Sweep
import Downset.Proofs.Arena.Total
import Downset.Proofs.Arena.Union
import Downset.Proofs.Arena.Values
import Downset.Proofs.Arena.Visits
import Downset.Proofs.Build.Checked
import Downset.Proofs.Build.Consistency
import Downset.Proofs.Build.Cycles
import Downset.Proofs.Build.Discovery
import Downset.Proofs.Build.Keeps
import Downset.Proofs.Build.Leaves
import Downset.Proofs.Build.Outcome
import Downset.Proofs.Build.Stack
import Downset.Proofs.Digraph.DepthFirst
import Downset.Proofs.Digraph.Normalize
import Downset.Proofs.Digraph.Topological
import Downset.Proofs.Digraph.TwoPass
import Downset.Proofs.Dot.Graph
import Downset.Proofs.Dot.Lines
import Downset.Proofs.Index.Answers
import Downset.Proofs.Index.Caching
import Downset.Proofs.Index.Cycles
import Downset.Proofs.Index.Detours
import Downset.Proofs.Index.Diagram
import Downset.Proofs.Index.Extending
import Downset.Proofs.Index.Faithful
import Downset.Proofs.Index.Freshness
import Downset.Proofs.Index.Frozen
import Downset.Proofs.Index.History
import Downset.Proofs.Index.Lasting
import Downset.Proofs.Index.Making
import Downset.Proofs.Index.Reads
import Downset.Proofs.Index.Reduced
import Downset.Proofs.Index.Representation
import Downset.Proofs.Index.Requests
import Downset.Proofs.Index.Shape
import Downset.Proofs.Index.Walking
import Downset.Proofs.Json.Decode
import Downset.Proofs.Json.Document
import Downset.Proofs.Json.Grammar
import Downset.Proofs.Json.Literals
import Downset.Proofs.Json.Pretty
import Downset.Proofs.Json.Rearranged
import Downset.Proofs.Order.Beyond
import Downset.Proofs.Order.Essential
import Downset.Proofs.Order.Frontier
import Downset.Proofs.Order.Safety
import Downset.Proofs.Poset.Account
import Downset.Proofs.Poset.Chains
import Downset.Proofs.Poset.Covers
import Downset.Proofs.Poset.Cycles
import Downset.Proofs.Poset.Declared
import Downset.Proofs.Poset.Register
import Downset.Proofs.Poset.Sorted
import Downset.Proofs.Scenario.Format
import Downset.Proofs.Scenario.Forms
import Downset.Proofs.Scenario.Reading
import Downset.Proofs.Scenario.Rearranged
import Downset.Proofs.Scenario.Reference
import Downset.Proofs.Scenario.Refinement
import Downset.Proofs.Scenario.Report
import Downset.Proofs.Text.Delimited
import Downset.Proofs.Text.Quoted
import Downset.Scenario.Basic
import Downset.Scenario.Reading
import Downset.Scenario.Run
import Downset.Table
import Downset.Text.Characters
import Downset.Text.Quoted
