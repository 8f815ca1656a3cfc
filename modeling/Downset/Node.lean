import Downset.OrderedSet

/-!
# Nodes

The graph behind an index has a query node for each key that can be queried and was met,
a leaf for each other key that holds values of its own and lies below some query node, and
one sink, which stands for every key below no query node and drops what is put there.
Links lead upwards: the values of a node flow to the nodes above it.
-/

namespace Downset

/-- The place of a node among all nodes of a graph. -/
@[ext]
structure NodeId where
  index : Nat
  deriving DecidableEq, Repr

def NodeId.sink : NodeId := ⟨0⟩

inductive NodeKind
  | query
  | leaf
  | sink
  deriving DecidableEq, Repr

def NodeKind.name : NodeKind → String
  | query => "Query"
  | leaf => "Leaf"
  | sink => "Sink"

/-- A node with its own values and its links. -/
inductive Node (K V : Type)
  /-- A key that can be queried, with the nodes whose values flow in and the nodes to which
  its values flow on. -/
  | query (key : K) (values : OrderedSet V) (below above : OrderedSet NodeId)
  /-- A key that cannot be queried but holds values and feeds the query nodes above it. -/
  | leaf (key : K) (values : OrderedSet V) (above : OrderedSet NodeId)
  | sink

namespace Node

variable {K V : Type}

instance : Inhabited (Node K V) := ⟨sink⟩

def kind : Node K V → NodeKind
  | query .. => .query
  | leaf .. => .leaf
  | sink => .sink

def key? : Node K V → Option K
  | query key .. => some key
  | leaf key .. => some key
  | sink => none

def values : Node K V → OrderedSet V
  | query _ values _ _ => values
  | leaf _ values _ => values
  | sink => ∅

/-- The nodes whose values flow into this one. Only query nodes have any. -/
def below : Node K V → OrderedSet NodeId
  | query _ _ below _ => below
  | leaf .. => ∅
  | sink => ∅

def above : Node K V → OrderedSet NodeId
  | query _ _ _ above => above
  | leaf _ _ above => above
  | sink => ∅

def newQuery (key : K) : Node K V := query key ∅ ∅ ∅

def newLeaf (key : K) : Node K V := leaf key ∅ ∅

/-- Adds a value. The sink drops it. -/
def accept [DecidableEq V] (value : V) : Node K V → Node K V
  | query key values below above => query key (values.insert value) below above
  | leaf key values above => leaf key (values.insert value) above
  | sink => sink

def clear : Node K V → Node K V
  | query key _ below above => query key ∅ below above
  | leaf key _ above => leaf key ∅ above
  | sink => sink

def mapAbove (change : OrderedSet NodeId → OrderedSet NodeId) : Node K V → Node K V
  | query key values below above => query key values below (change above)
  | leaf key values above => leaf key values (change above)
  | sink => sink

def mapBelow (change : OrderedSet NodeId → OrderedSet NodeId) : Node K V → Node K V
  | query key values below above => query key values (change below) above
  | leaf key values above => leaf key values above
  | sink => sink

def label (render : K → String) : Node K V → String
  | query key .. => render key
  | leaf key .. => "leaf(" ++ render key ++ ")"
  | sink => "<sink>"

end Node

end Downset
