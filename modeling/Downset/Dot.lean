import Downset.Table
import Downset.Text.Quoted

/-!
# Drawings of graphs

A graph of labelled, coloured nodes as text in the DOT language: one line per node, in
order and numbered from zero, and then one line per edge between two of these numbers.
-/

namespace Downset.Dot

inductive Color
  | green
  | black
  deriving DecidableEq, Repr

def Color.name : Color → String
  | green => "green"
  | black => "black"

/-- A graph to draw. The nodes are numbered by their places, and edges name the numbers. -/
structure Graph where
  nodes : List (String × Color)
  edges : List (Nat × Nat)
  deriving DecidableEq, Repr

def decimal (n : Nat) : List Char := Nat.toDigits 10 n

/-- The line of one node: its number, its label as a quoted text, and its colour. -/
def nodeLine (number : Nat) (node : String × Color) : List Char :=
  "    ".toList ++ decimal number ++ " [ label=".toList ++ Text.quoted node.1.toList ++
    " color=".toList ++ node.2.name.toList ++ "]\n".toList

def edgeLine (edge : Nat × Nat) : List Char :=
  "    ".toList ++ decimal edge.1 ++ " -> ".toList ++ decimal edge.2 ++ " [ ]\n".toList

def nodeLines (first : Nat) : List (String × Color) → List Char
  | [] => []
  | node :: rest => nodeLine first node ++ nodeLines (first + 1) rest

namespace Graph

def layout (graph : Graph) : List Char :=
  "digraph \x7b\n".toList ++ nodeLines 0 graph.nodes ++ graph.edges.flatMap edgeLine ++
    "\x7d\n".toList

def render (graph : Graph) : String := String.ofList graph.layout

end Graph

variable {N : Type} [DecidableEq N]

/-- The number of each node of a list. A node that occurs more than once has the number of
its last place, and stands where it came first. -/
def numbering (nodes : List N) : Table N Nat :=
  nodes.zipIdx.foldl (fun numbers node => numbers.insert node.1 node.2) ∅

/-- The graph of a list of nodes. Each node of the list has its line; the edges lead from
every node, once, to those of its successors that are in the list. -/
def graph (nodes : List N) (successors : N → List N) (color : N → Color) (label : N → String) :
    Graph :=
  let numbers := numbering nodes
  { nodes := nodes.map fun node => (label node, color node)
    edges := numbers.entries.flatMap fun entry =>
      (successors entry.1).filterMap fun next =>
        (numbers.find? next).map fun number => (entry.2, number) }

end Downset.Dot
