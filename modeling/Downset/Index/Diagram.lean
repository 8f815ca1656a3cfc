import Downset.Index.Basic
import Downset.Dot

/-!
# What an index shows of itself

The numbers of its query nodes and links, what each key was made into, one line for dumps,
and a drawing. This shows the nodes as a graph: query nodes in green under the text of their
key, leaves in black and marked as leaves, and the sink if some key ends in it. Nodes come in
the order in which keys met them.
-/

namespace Downset.Index

variable {K V : Type}

def queryCount (index : Index K V) : Nat := index.arena.queryCount

def linkCount (index : Index K V) : Nat := index.arena.linkCount

/-- The slots that a drawing shows: those of the keys, in order of arrival, and then any
others but the sink's. -/
def shown (index : Index K V) : OrderedSet NodeId :=
  (OrderedSet.ofList index.arena.slots.values).insertMany (index.arena.ids.drop 1)

def diagram (index : Index K V) : Dot.Graph :=
  Dot.graph index.shown.toList
    (fun id => (index.arena.node id).above.toList)
    (fun id => if (index.arena.node id).kind = .query then .green else .black)
    (fun id => (index.arena.node id).label index.render)

def toDot (index : Index K V) : String := index.diagram.render

/-- One line about an index: its filter, how many keys have a slot, how many nodes there
are with the sink, and the phase. -/
def describe [Quotable K] (index : Index K V) : String :=
  "LatticeRelation \x7b filter: " ++ index.filter.describe ++
    ", keys: " ++ index.arena.slots.size.repr ++
    ", nodes: " ++ index.arena.nodes.size.repr ++
    ", phase: " ++ index.phase.title ++ " \x7d"

def kindOf? [DecidableEq K] (index : Index K V) (key : K) : Option NodeKind := index.arena.kindOf? key

end Downset.Index
