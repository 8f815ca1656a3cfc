import Downset.Poset.Order

/-!
# Orders of edges and of chains

An order is declared key by key and edge by edge. Nothing is inferred: an edge that others
imply stays until the order is normalised, and an edge from a key to itself stays for good,
so that it can be found to be a cycle. An order may be given by its edges, or by chains, each
of which declares every key below all later ones. A normalised order has the essential edges
of its graph only, so that on an order without cycles the keys directly above a key are those
that cover it. An order given by chains is normalised from the start.
-/

namespace Downset.Poset

variable {K : Type}

def normalize (poset : Poset K) : Poset K := { poset with above := poset.graph.normalize.rows }

/-- Every key of a chain with every later one. -/
def chainPairs : List K → List (K × K)
  | [] => []
  | key :: rest => rest.map (key, ·) ++ chainPairs rest

variable [DecidableEq K]

def addKey (poset : Poset K) (key : K) : Poset K :=
  if key ∈ poset.keys then poset else ⟨poset.keys ++ [key], poset.above.push []⟩

def addKeys (poset : Poset K) (keys : List K) : Poset K := keys.foldl addKey poset

def addEdge (poset : Poset K) (lower upper : K) : Poset K :=
  let poset := (poset.addKey lower).addKey upper
  let u := poset.keys.idxOf lower
  let v := poset.keys.idxOf upper
  { poset with above := poset.above.modify u fun row => if v ∈ row then row else row ++ [v] }

def addEdges (poset : Poset K) (edges : List (K × K)) : Poset K :=
  edges.foldl (fun poset edge => poset.addEdge edge.1 edge.2) poset

def ofEdges (edges : List (K × K)) : Poset K := (∅ : Poset K).addEdges edges

/-- The order in which every row is a chain from the lowest key to the highest, normalised. -/
def ofRows (rows : List (List K)) : Poset K :=
  (((∅ : Poset K).addKeys rows.flatten).addEdges (rows.flatMap chainPairs)).normalize

end Downset.Poset
