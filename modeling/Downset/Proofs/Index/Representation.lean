import Downset.Proofs.Arena.Representation
import Downset.Proofs.Build.Checked
import Downset.Proofs.Index.Lasting
import Downset.Proofs.Index.Shape

/-!
# Slots at any time

In whatever state the operations of a session leave an index, also when puts have stopped half
way at a cycle, its arena represents the nodes: the slot that a key has or gets, the slots at the
ends of links and those that a sweep meets all lie within the array and hold nodes of the kinds
that belong there. So putting a value with checked accesses, and making an index with checked
accesses, is no different from doing so without checks.
-/

namespace Downset

variable {K V : Type} [DecidableEq K] {order : KeyOrder K} {filter : KeyFilter K}
  {index : Index K V} {arena : Arena K V}

namespace Arena

theorem Filled.lasts : Lasts order filter (Filled (K := K) (V := V)) where
  locate h := (keptByLocating filter).locate h
  shape h hshape := h.of_kind hshape.size hshape.kind

theorem Productive.lasts : Lasts order filter (Productive (K := K) (V := V)) where
  locate h := (keptByLocating filter).locate h
  shape h hshape := h.of_sameShape hshape

theorem Productive.dropTransitive (h : arena.Productive) (hleaf : ∀ n, (arena.node n).kind ≠ .leaf) :
    arena.dropTransitive.Productive := by
  rw [dropTransitive_eq]
  constructor
  · intro n hn
    rw [kind_unlinkAll] at hn
    exact absurd hn (hleaf n)
  · intro key found hfound
    rw [skipped_unlinkAll] at hfound
    exact h.skipped_some key found hfound

end Arena

namespace Build

/-- Locating a key in an arena that represents nodes leaves one behind, and the slot of the key
lies within it. -/
theorem locate_represents {dropped : K → K → Prop} {key : K}
    (h : Arena.Consistent order filter dropped [] arena) (hproductive : arena.Productive)
    (hfilled : arena.Filled) :
    (locate order filter key).Ends arena
      (fun id after => after.Represents filter ∧ after.slots.find? key = some id ∧
        id.index < after.nodes.size)
      (fun _ after => after.Represents filter) := by
  refine ((locate_spec h).and (((Arena.Productive.keptByLocating filter).locate hproductive).and
    ((Arena.Filled.keptByLocating filter).locate hfilled))).mono ?_ ?_
  · rintro id after ⟨hlocates, hproductive, hfilled⟩
    have hafter := hlocates.consistent.represents hproductive hfilled
    exact ⟨hafter, hlocates.located, hafter.slot_lt key id hlocates.located⟩
  · rintro twice after ⟨habandons, hproductive, hfilled⟩
    exact habandons.consistent.represents hproductive hfilled

end Build

namespace Index

def locate? (index : Index K V) (key : K) : Option (Except Fault NodeId × Index K V) := do
  let (found, arena) ← (Checked.locate index.order index.filter key).run index.arena
  let index := { index with arena := arena }
  match found with
  | .ok id => return (.ok id, index)
  | .error twice => return (.error (.cycleDetected index.order.name (index.render twice)), index)

def locateAll? (index : Index K V) : List K → Option (Except Fault (Index K V))
  | [] => some (.ok index)
  | key :: rest => do
    match ← index.locate? key with
    | (.ok _, index) => index.locateAll? rest
    | (.error fault, _) => return .error fault

def ofKeys? [Quotable K] (order : KeyOrder K) (keys : List K) :
    Option (Except Fault (Index K V)) := do
  let keys := OrderedSet.ofList keys
  match ← (empty order (.keySet keys) quote).locateAll? keys.toList with
  | .ok index => return .ok { index with arena := ← index.arena.dropTransitive? }
  | .error fault => return .error fault

def put? [DecidableEq V] (index : Index K V) (key : K) (value : V) :
    Option (Except Fault Unit × Index K V) :=
  match index.phase.require .writable with
  | .error fault => some (.error fault, index)
  | .ok () => do
    match ← index.locate? key with
    | (.error fault, index) => return (.error fault, index)
    | (.ok id, index) =>
      let arena ← index.arena.modify? [.query, .leaf, .sink] id (·.accept value)
      return (.ok (), { index with arena := arena })

variable {dropped : K → K → Prop} {key : K} {value : V} {keys : List K}

theorem locate?_eq (h : Arena.Consistent index.order index.filter dropped [] index.arena) :
    index.locate? key = some (index.locate key) := by
  have hpasses : (Checked.locate index.order index.filter key).run index.arena =
      some ((Build.locate index.order index.filter key).run index.arena) := Checked.passes_locate h
  unfold locate? locate
  rw [hpasses]
  rcases (Build.locate index.order index.filter key).run index.arena with ⟨twice | id, after⟩
  · rfl
  · rfl

theorem locateAll?_eq (h : Arena.Consistent index.order index.filter dropped [] index.arena) :
    index.locateAll? keys = some (index.locateAll keys) := by
  induction keys generalizing index with
  | nil => rfl
  | cons key rest ih =>
    unfold locateAll? locateAll
    rw [locate?_eq h]
    rcases index.locate_cases key h with ⟨id, after, hlocate, hlocates⟩ | ⟨_, after, hlocate, _⟩
    · rw [hlocate]
      exact ih hlocates.consistent
    · rw [hlocate]
      rfl

theorem ofKeys?_eq [Quotable K] (order : KeyOrder K) (keys : List K) :
    (ofKeys? order keys : Option (Except Fault (Index K V))) = some (ofKeys order keys) := by
  have hprepared := Arena.prepared_empty (K := K) (V := V) order (keyFilter keys)
  have haccepts : ∀ key ∈ (OrderedSet.ofList keys).toList, (keyFilter keys).accepts key = true :=
    fun key hkey => decide_eq_true hkey
  have hchecked : (empty order (keyFilter keys) quote : Index K V).locateAll?
      (OrderedSet.ofList keys).toList = some (locateAll _ _) := locateAll?_eq hprepared.consistent
  change ((empty order (keyFilter keys) quote).locateAll? _).bind _ =
    some (Except.map _ ((empty order (keyFilter keys) quote).locateAll _))
  rw [hchecked]
  rcases locateAll_cases (empty order (keyFilter keys) quote) haccepts hprepared with
    ⟨arena, hall, hafter, _⟩ | ⟨_, _, twice, hall, _⟩
  · rw [hall]
    change arena.dropTransitive?.bind _ = _
    rw [hafter.consistent.toWellFormed.dropTransitive?_eq]
    rfl
  · rw [hall]
    rfl

theorem put?_eq [DecidableEq V]
    (h : Arena.Consistent index.order index.filter dropped [] index.arena) :
    index.put? key value = some (index.put key value) := by
  unfold put? put
  cases index.phase.require .writable with
  | error fault => rfl
  | ok _ =>
    rw [locate?_eq h]
    rcases index.locate_cases key h with ⟨id, after, hlocate, hlocates⟩ | ⟨_, after, hlocate, _⟩
    · have hlt := hlocates.consistent.slot_lt hlocates.located
      rw [hlocate]
      change (after.modify? _ id _).bind _ = _
      rw [Arena.modify?, Arena.access?_of_lt hlt]
      rfl
    · rw [hlocate]
      rfl

end Index

namespace Session

variable [Quotable K] [DecidableEq V]

theorem productive_run (hindex : index.Initial order) (operations : List (Operation K V)) :
    ((start index).run operations).index.arena.Productive := by
  refine (faithful_start hindex).run_lasts Arena.Productive.lasts ?_ operations
  exact hindex.lasts (fun _ => Arena.Productive.lasts)
    (Arena.built_empty order index.filter).toProductive fun h hleaf => h.dropTransitive hleaf

theorem filled_run (hindex : index.Initial order) (operations : List (Operation K V)) :
    ((start index).run operations).index.arena.Filled := by
  refine (faithful_start hindex).run_lasts Arena.Filled.lasts ?_ operations
  exact hindex.lasts (fun _ => Arena.Filled.lasts) Arena.Filled.of_empty fun h _ => h.dropTransitive

/-- The arena of an index represents nodes at any time. A key that is then located in it gets a
slot within the array, and also if this stops at a cycle the arena that is left represents nodes;
and a sweep looks only at slots within the array that hold a query node or a leaf. So no access
fails: not while a value is put, whether or not this stops at a cycle, and not while an index is
made for a list of keys and links are dropped. -/
theorem represents_run (hindex : index.Initial order) (operations : List (Operation K V)) :
    let s := (start index).run operations
    s.index.arena.Represents index.filter ∧
    (∀ key, (Build.locate order index.filter key).Ends s.index.arena
      (fun id after => after.Represents index.filter ∧ after.slots.find? key = some id ∧
        id.index < after.nodes.size)
      (fun _ after => after.Represents index.filter)) ∧
    (∀ top n, n ∈ (s.index.arena.aggregate top (.start s.index.caches)).seen →
      n.index < s.index.arena.nodes.size ∧
        ((s.index.arena.node n).kind = .query ∨ (s.index.arena.node n).kind = .leaf)) ∧
    (∀ key value, s.index.put? key value = some (s.index.put key value)) ∧
    ∀ keys, (Index.ofKeys? order keys : Option (Except Fault (Index K V))) =
      some (Index.ofKeys order keys) := by
  intro s
  have hs : s.Faithful order index.filter := (faithful_start hindex).run operations
  have hproductive : s.index.arena.Productive := productive_run hindex operations
  have hfilled : s.index.arena.Filled := filled_run hindex operations
  have hrepresents := hs.consistent.represents hproductive hfilled
  refine ⟨hrepresents, ?_, ?_, ?_, Index.ofKeys?_eq order⟩
  · intro key
    exact Build.locate_represents hs.consistent hproductive hfilled
  · intro top n hn
    exact hrepresents.sweep hn
  · intro key value
    have hconsistent : Arena.Consistent s.index.order s.index.filter (order.Bridged index.filter) []
        s.index.arena := by
      rw [hs.order_eq, hs.filter_eq]
      exact hs.consistent
    exact Index.put?_eq hconsistent

/-- The first put runs into the cycle and is given up half way, and the puts after it find what it
has built. -/
theorem represents_run_knot :
    let index : Index Int Nat := .ofPredicate .knot fun key => decide (key ≠ 2)
    let s := (start index).run [.put 2 20, .put 3 30]
    index.Initial .knot ∧ s.index.arena.Represents index.filter ∧
      s.index.put? 1 10 = some (s.index.put 1 10) := by
  intro index s
  have hindex : index.Initial .knot := .ofPredicate fun key => decide (key ≠ 2)
  obtain ⟨hrepresents, _, _, hput, _⟩ := represents_run hindex [.put 2 20, .put 3 30]
  exact ⟨hindex, hrepresents, hput 1 10⟩

end Session

end Downset
