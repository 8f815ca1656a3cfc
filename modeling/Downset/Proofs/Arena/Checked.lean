import Downset.Proofs.Arena.Reduction

/-!
# Checked accesses to the nodes

Outside of the array there is nothing but the sink, so that an arena can be asked for any slot and
changed at any slot. Here an access gives nothing if the slot is not in the array or the node there
is not of the kinds that belong there. In a well-formed arena no access fails that follows a key's
slot or a link, that makes a link to a query node, or that drops a link.
-/

namespace Downset.Arena

section Lists

variable {α β : Type}

theorem mapM_eq_some {f : α → Option β} {g : α → β} {l : List α} (h : ∀ a ∈ l, f a = some (g a)) :
    l.mapM f = some (l.map g) := by
  induction l with
  | nil => rfl
  | cons a rest ih =>
    rw [List.mapM_cons, h a List.mem_cons_self, ih fun b hb => h b (List.mem_cons_of_mem a hb)]
    rfl

/-- No step of a list fails if each step may be taken at the start and no step takes that away. -/
theorem foldlM_eq_some {f : β → α → Option β} {g : β → α → β} {May : β → α → Prop}
    (hstep : ∀ b a, May b a → f b a = some (g b a)) (hkeep : ∀ b a a', May b a' → May (g b a) a')
    {l : List α} {b : β} (h : ∀ a ∈ l, May b a) : l.foldlM f b = some (l.foldl g b) := by
  induction l generalizing b with
  | nil => rfl
  | cons a rest ih =>
    rw [List.foldlM_cons, hstep b a (h a List.mem_cons_self)]
    exact ih fun a' ha' => hkeep b a a' (h a' (List.mem_cons_of_mem a ha'))

end Lists

variable {K V : Type}

/-- The node in a slot of the array, if it is of one of the kinds. -/
def access? (arena : Arena K V) (kinds : List NodeKind) (id : NodeId) : Option (Node K V) :=
  arena.nodes[id.index]?.filter fun node => node.kind ∈ kinds

def modify? (arena : Arena K V) (kinds : List NodeKind) (id : NodeId)
    (change : Node K V → Node K V) : Option (Arena K V) :=
  (arena.access? kinds id).map fun _ => arena.modify id change

def link? (arena : Arena K V) (lower upper : NodeId) : Option (Arena K V) := do
  let arena ← arena.modify? [.query, .leaf] lower (Node.mapAbove fun s => s.insert upper)
  arena.modify? [.query] upper (Node.mapBelow fun s => s.insert lower)

def unlink? (arena : Arena K V) (lower upper : NodeId) : Option (Arena K V) := do
  let arena ← arena.modify? [.query, .leaf] lower (Node.mapAbove fun s => s.erase upper)
  arena.modify? [.query] upper (Node.mapBelow fun s => s.erase lower)

def linkAll? (arena : Arena K V) (lower : NodeId) (uppers : List NodeId) : Option (Arena K V) :=
  uppers.foldlM (fun arena upper => arena.link? lower upper) arena

def bridgedBy? (arena : Arena K V) (middle : NodeId) : Option (List (NodeId × NodeId)) := do
  let node ← arena.access? [.query, .leaf, .sink] middle
  let bridged ← node.below.toList.mapM fun lower => do
    let other ← arena.access? [.query, .leaf] lower
    return (node.above.toList.filter fun upper =>
      lower ≠ middle ∧ upper ≠ middle ∧ upper ∈ other.above).map (lower, ·)
  return bridged.flatten

def dropTransitive? (arena : Arena K V) : Option (Arena K V) := do
  let bridged ← arena.ids.mapM arena.bridgedBy?
  bridged.flatten.foldlM (fun arena pair => arena.unlink? pair.1 pair.2) arena

/-- What is known of a key, with a look at the node in its slot. -/
def known? [DecidableEq K] (arena : Arena K V) (key : K) : Option (Option (OrderedSet NodeId)) :=
  match arena.slots.find? key with
  | some id => do
    match ← arena.access? [.query, .leaf, .sink] id with
    | .query .. => return some (.singleton id)
    | .leaf _ _ above => return some above
    | .sink => return some ∅
  | none => some (arena.skipped.find? key)

variable {arena : Arena K V} {id lower upper : NodeId} {kinds : List NodeKind}

theorem access?_eq (hlt : id.index < arena.nodes.size) (hkind : (arena.node id).kind ∈ kinds) :
    arena.access? kinds id = some (arena.node id) := by
  have hnode : arena.nodes[id.index]? = some (arena.node id) := by
    rw [node, Array.getD_eq_getD_getElem?, Array.getElem?_eq_getElem hlt]
    rfl
  rw [access?, hnode]
  simp [hkind]

theorem access?_of_lower (h : (arena.node lower).kind ≠ .sink) :
    arena.access? [.query, .leaf] lower = some (arena.node lower) := by
  refine access?_eq (index_lt_of_kind_ne_sink h) ?_
  cases hkind : (arena.node lower).kind with
  | query | leaf => simp
  | sink => exact absurd hkind h

theorem access?_of_upper (h : (arena.node upper).kind = .query) :
    arena.access? [.query] upper = some (arena.node upper) :=
  access?_eq (index_lt_of_kind_ne_sink (query_ne_sink h)) (List.mem_singleton.2 h)

theorem access?_of_lt (h : id.index < arena.nodes.size) :
    arena.access? [.query, .leaf, .sink] id = some (arena.node id) := by
  refine access?_eq h ?_
  cases (arena.node id).kind <;> simp

theorem kind_modify_mapAbove {change : OrderedSet NodeId → OrderedSet NodeId} {n : NodeId} :
    ((arena.modify id (Node.mapAbove change)).node n).kind = (arena.node n).kind := by
  rw [node_modify rfl]
  split <;> simp

/-- A node from which and a node to which a link may lead. -/
def Linkable (arena : Arena K V) (lower upper : NodeId) : Prop :=
  (arena.node lower).kind ≠ .sink ∧ (arena.node upper).kind = .query

/-- The two ends of a link may be changed one after the other. -/
theorem modify?_ends {above below : OrderedSet NodeId → OrderedSet NodeId}
    (h : arena.Linkable lower upper) :
    (do let after ← arena.modify? [.query, .leaf] lower (Node.mapAbove above)
        after.modify? [.query] upper (Node.mapBelow below)) =
      some ((arena.modify lower (Node.mapAbove above)).modify upper (Node.mapBelow below)) := by
  have hupper : ((arena.modify lower (Node.mapAbove above)).node upper).kind = .query :=
    kind_modify_mapAbove.trans h.2
  unfold modify?
  rw [access?_of_lower h.1]
  simp only [Option.map_some, Option.bind_eq_bind, Option.bind_some]
  rw [access?_of_upper hupper]
  rfl

theorem link?_eq (h : arena.Linkable lower upper) :
    arena.link? lower upper = some (arena.link lower upper) := modify?_ends h

theorem unlink?_eq (h : arena.Linkable lower upper) :
    arena.unlink? lower upper = some (arena.unlink lower upper) := modify?_ends h

theorem linkAll?_eq {uppers : List NodeId} (h : ∀ upper ∈ uppers, arena.Linkable lower upper) :
    arena.linkAll? lower uppers = some (arena.linkAll lower uppers) := by
  have hkeep : ∀ (before : Arena K V) (made upper : NodeId), before.Linkable lower upper →
      (before.link lower made).Linkable lower upper := by
    intro before made upper hmay
    rw [Linkable, kind_link, kind_link]
    exact hmay
  unfold linkAll? linkAll
  exact foldlM_eq_some (fun _ _ hmay => link?_eq hmay) hkeep h

theorem linkable_addNode [DecidableEq K] {key : K} {node : Node K V}
    (hnode : node.kind ≠ .sink) (hupper : (arena.node upper).kind = .query) :
    (arena.addNode key node).Linkable arena.nextId upper := by
  rw [Linkable, node_addNode, node_addNode, if_pos rfl, if_neg (ne_nextId (query_ne_sink hupper))]
  exact ⟨hnode, hupper⟩

namespace WellFormed

variable [DecidableEq K] {filter : KeyFilter K} {key : K} (h : arena.WellFormed filter)

include h

theorem known?_eq : arena.known? key = some (arena.frontier? key) := by
  unfold known? frontier?
  cases hslot : arena.slots.find? key with
  | none => rfl
  | some id =>
    simp only [access?_of_lt (h.slot_lt hslot)]
    cases arena.node id <;> rfl

theorem linkable (hlink : upper ∈ (arena.node lower).above) : arena.Linkable lower upper :=
  ⟨kind_ne_sink_of_mem_above hlink, h.kind_above hlink⟩

theorem bridgedBy?_eq (hid : id ∈ arena.ids) : arena.bridgedBy? id = some (arena.bridgedBy id) := by
  have hlt : id.index < arena.nodes.size := by
    obtain ⟨index, hindex, rfl⟩ := List.mem_map.1 hid
    exact List.mem_range.1 hindex
  have hlower : ∀ lower ∈ (arena.node id).below.toList,
      arena.access? [.query, .leaf] lower = some (arena.node lower) :=
    fun lower hlower => access?_of_lower (h.linkable (h.mirror.2 hlower)).1
  unfold bridgedBy? bridgedBy
  rw [access?_of_lt hlt, List.flatMap_def]
  simp only [Option.bind_eq_bind, Option.bind_some]
  rw [mapM_eq_some fun lower hmem => by rw [hlower lower hmem]; rfl]
  rfl

/-- No access fails while the bridged links are chosen and dropped. -/
theorem dropTransitive?_eq : arena.dropTransitive? = some arena.dropTransitive := by
  have hmay : ∀ pair ∈ arena.redundantLinks, arena.Linkable pair.1 pair.2 :=
    fun pair hpair => h.linkable (mem_redundantLinks_iff.1 hpair).1
  have hkeep : ∀ (before : Arena K V) (gone pair : NodeId × NodeId),
      before.Linkable pair.1 pair.2 →
        (before.unlink gone.1 gone.2).Linkable pair.1 pair.2 := by
    intro before gone pair hmay
    rw [Linkable, kind_unlink, kind_unlink]
    exact hmay
  unfold dropTransitive? dropTransitive
  rw [mapM_eq_some fun id hid => h.bridgedBy?_eq hid]
  exact foldlM_eq_some (fun _ _ hmay => unlink?_eq hmay) hkeep hmay

end WellFormed

end Downset.Arena
