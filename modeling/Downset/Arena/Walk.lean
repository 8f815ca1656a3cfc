import Downset.Arena.Basic
import Downset.KeyOrder

/-!
# Walks through the order

A key that is met for the first time is built into the arena together with everything
above it that is not built yet. The walk goes up the order with the path of keys that it
stands on, and stops with a key of that path when it meets it again. A key that can be
queried becomes a query node, linked to the query nodes nearest above it. Any other key is
passed over: what a key below it is linked to are the query nodes that lie beyond.

A walk that stops at a cycle leaves in the arena what it has built up to there.
`reach_eq` unfolds a walk by one key.
-/

namespace Downset

/-- Steps that build an arena and may stop with a key that was met twice on one path. -/
abbrev Build (K V : Type) := ExceptT K (StateM (Arena K V))

namespace Build

variable {K V α : Type}

def linkAll (lower : NodeId) (uppers : List NodeId) : Build K V Unit :=
  modify fun arena => uppers.foldl (fun arena upper => arena.link lower upper) arena

/-- Links a node to whatever a walk finds from each key in turn. -/
def descend (walk : α → Build K V (OrderedSet NodeId)) (id : NodeId) : List α → Build K V Unit
  | [] => pure ()
  | next :: rest => do
    let found ← walk next
    linkAll id found.toList
    descend walk id rest

def gather (walk : α → Build K V (OrderedSet NodeId)) (found : OrderedSet NodeId) :
    List α → Build K V (OrderedSet NodeId)
  | [] => pure found
  | next :: rest => do
    let more ← walk next
    gather walk (found ∪ more) rest

theorem descend_map {β : Type} (f : β → α) (walk : α → Build K V (OrderedSet NodeId))
    (id : NodeId) (keys : List β) :
    descend (fun next => walk (f next)) id keys = descend walk id (keys.map f) := by
  induction keys with
  | nil => rfl
  | cons next rest ih => simp only [descend, List.map_cons, ih]

theorem gather_map {β : Type} (f : β → α) (walk : α → Build K V (OrderedSet NodeId))
    (found : OrderedSet NodeId) (keys : List β) :
    gather (fun next => walk (f next)) found keys = gather walk found (keys.map f) := by
  induction keys generalizing found with
  | nil => rfl
  | cons next rest ih => simp only [gather, List.map_cons, ih]

variable [DecidableEq K]

def addNode (key : K) (node : Node K V) : Build K V NodeId := do
  let id := (← get).nextId
  modify fun arena => arena.addNode key node
  return id

def passOver (key : K) (frontier : OrderedSet NodeId) : Build K V Unit :=
  modify fun arena =>
    if frontier.isEmpty then arena.addDeadEnd key else arena.remember key frontier

/-- The nodes to which a key directly below `key` has to be linked. Builds whatever is not
built yet; `path` holds the keys on which the walk stands. -/
def reach (order : KeyOrder K) (filter : KeyFilter K) (path : List K) (key : K) :
    Build K V (OrderedSet NodeId) :=
  if _ : key ∈ path then throw key
  else do
    match (← get).frontier? key with
    | some frontier => return frontier
    | none =>
      if filter.accepts key then do
        let id ← addNode key (.newQuery key)
        descend (fun next : { next // next ∈ order.successors key } =>
          reach order filter (key :: path) next.1) id (order.successors key).attach
        return .singleton id
      else do
        let frontier ← gather (fun next : { next // next ∈ order.successors key } =>
          reach order filter (key :: path) next.1) ∅ (order.successors key).attach
        passOver key frontier
        return frontier
termination_by order.extent path key
decreasing_by all_goals exact KeyOrder.extent_lt ‹key ∉ path› next.2

theorem reach_eq (order : KeyOrder K) (filter : KeyFilter K) (path : List K) (key : K) :
    (reach order filter path key : Build K V (OrderedSet NodeId)) =
      if key ∈ path then throw key
      else do
        match (← get).frontier? key with
        | some frontier => return frontier
        | none =>
          if filter.accepts key then do
            let id ← addNode key (.newQuery key)
            descend (reach order filter (key :: path)) id (order.successors key)
            return .singleton id
          else do
            let frontier ← gather (reach order filter (key :: path)) ∅ (order.successors key)
            passOver key frontier
            return frontier := by
  rw [reach]
  simp only [descend_map Subtype.val (reach order filter (key :: path)),
    gather_map Subtype.val (reach order filter (key :: path)), List.attach_map_subtype_val]
  rfl

/-- The query nodes nearest above a key that cannot be queried and is now put at: what was
remembered of it, which is then forgotten, or else what a walk finds. -/
def takeFrontier (order : KeyOrder K) (filter : KeyFilter K) (key : K) :
    Build K V (OrderedSet NodeId) := do
  match (← get).skipped.find? key with
  | some frontier =>
    modify fun arena => arena.forget key
    return frontier
  | none => gather (reach order filter [key]) ∅ (order.successors key)

/-- Builds the node of a key that has no slot yet, and everything above it. -/
def materialize (order : KeyOrder K) (filter : KeyFilter K) (key : K) : Build K V NodeId := do
  if filter.accepts key then
    let id ← addNode key (.newQuery key)
    descend (reach order filter [key]) id (order.successors key)
    return id
  else
    let frontier ← takeFrontier order filter key
    if frontier.isEmpty then
      modify fun arena => arena.addDeadEnd key
      return .sink
    else
      let id ← addNode key (.newLeaf key)
      linkAll id frontier.toList
      return id

/-- The slot of a key, which is built first if the key has none. -/
def locate (order : KeyOrder K) (filter : KeyFilter K) (key : K) : Build K V NodeId := do
  match (← get).slots.find? key with
  | some id => return id
  | none => materialize order filter key

end Build

end Downset
