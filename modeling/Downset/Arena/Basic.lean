import Downset.Node
import Downset.Table

/-!
# Arenas

All nodes of an index live in one array, whose first slot is the sink, and refer to each
other by their slots. Beside the array stand the slots of the keys met on their own, and
what is remembered of the keys that walks went past: the query nodes nearest above them.

A link from `i` to `k` is redundant when links lead from `i` to some `j` and from there to
`k`. All redundant links are determined on the graph as it is, and then dropped together.
-/

namespace Downset

/-- The nodes of an index and what is known of the keys met so far. -/
structure Arena (K V : Type) where
  /-- The nodes; the first is the sink. -/
  nodes : Array (Node K V)
  /-- The slot of each key that has a node or ends in the sink. -/
  slots : Table K NodeId
  /-- For keys that walks went past, the nearest query nodes above them. -/
  skipped : Table K (OrderedSet NodeId)

namespace Arena

variable {K V : Type}

def empty : Arena K V := ⟨#[.sink], ∅, ∅⟩

instance : EmptyCollection (Arena K V) := ⟨empty⟩

/-- The node in a slot; outside of the array there is nothing but the sink. -/
def node (arena : Arena K V) (id : NodeId) : Node K V := arena.nodes.getD id.index .sink

def ids (arena : Arena K V) : List NodeId := (List.range arena.nodes.size).map NodeId.mk

def modify (arena : Arena K V) (id : NodeId) (change : Node K V → Node K V) : Arena K V :=
  { arena with nodes := arena.nodes.modify id.index change }

def mapNodes (arena : Arena K V) (change : Node K V → Node K V) : Arena K V :=
  { arena with nodes := arena.nodes.map change }

def link (arena : Arena K V) (lower upper : NodeId) : Arena K V :=
  (arena.modify lower (Node.mapAbove fun s => s.insert upper)).modify upper
    (Node.mapBelow fun s => s.insert lower)

def unlink (arena : Arena K V) (lower upper : NodeId) : Arena K V :=
  (arena.modify lower (Node.mapAbove fun s => s.erase upper)).modify upper
    (Node.mapBelow fun s => s.erase lower)

def nextId (arena : Arena K V) : NodeId := ⟨arena.nodes.size⟩

def queryCount (arena : Arena K V) : Nat := arena.nodes.toList.countP fun n => n.kind = .query

def links (arena : Arena K V) : List (NodeId × NodeId) :=
  arena.ids.flatMap fun lower => (arena.node lower).above.toList.map (lower, ·)

def linkCount (arena : Arena K V) : Nat := arena.links.length

/-- The links that a query node `middle` bridges: from below it to above it. -/
def bridgedBy (arena : Arena K V) (middle : NodeId) : List (NodeId × NodeId) :=
  (arena.node middle).below.toList.flatMap fun lower =>
    ((arena.node middle).above.toList.filter fun upper =>
      lower ≠ middle ∧ upper ≠ middle ∧ upper ∈ (arena.node lower).above).map (lower, ·)

def redundantLinks (arena : Arena K V) : List (NodeId × NodeId) :=
  arena.ids.flatMap arena.bridgedBy

def dropTransitive (arena : Arena K V) : Arena K V :=
  arena.redundantLinks.foldl (fun arena pair => arena.unlink pair.1 pair.2) arena

variable [DecidableEq K]

def addNode (arena : Arena K V) (key : K) (node : Node K V) : Arena K V :=
  { arena with
    nodes := arena.nodes.push node
    slots := arena.slots.insert key arena.nextId }

def addDeadEnd (arena : Arena K V) (key : K) : Arena K V :=
  { arena with slots := arena.slots.insert key .sink }

def remember (arena : Arena K V) (key : K) (frontier : OrderedSet NodeId) : Arena K V :=
  { arena with skipped := arena.skipped.insert key frontier }

def forget (arena : Arena K V) (key : K) : Arena K V :=
  { arena with skipped := arena.skipped.erase key }

/-- The nodes to which a key directly below this one has to be linked, if the key was met
before: the query node of the key itself, or else the query nodes nearest above it. -/
def frontier? (arena : Arena K V) (key : K) : Option (OrderedSet NodeId) :=
  match arena.slots.find? key with
  | some id => some <|
    match arena.node id with
    | .query .. => .singleton id
    | .leaf _ _ above => above
    | .sink => ∅
  | none => arena.skipped.find? key

def kindOf? (arena : Arena K V) (key : K) : Option NodeKind :=
  (arena.slots.find? key).map fun id => (arena.node id).kind

end Arena

end Downset
