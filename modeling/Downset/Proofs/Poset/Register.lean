import Downset.Proofs.Poset.Account
import Downset.Table

/-!
# Finite orders in three parts

A register holds a finite order in three parts: a table of the number of each key, the list of the
keys, and for each number the numbers above it. Every look-up by a number fails if there is nothing
with that number. The parts are in step if the table has each key with its place in the list. They
stay in step whatever is declared, so that no look-up fails, and neither does one that a reader
makes; and what a register answers is what the order answers that it holds.
-/

namespace Downset

/-- A finite order with a table of the numbers of its keys. -/
structure Register (K : Type) where
  numbers : Table K Nat
  keys : List K
  above : Array (List Nat)

namespace Register

variable {K : Type}

def empty : Register K := ⟨∅, [], #[]⟩

def poset (register : Register K) : Poset K := ⟨register.keys, register.above⟩

/-- The graph of the numbers, if all of them are numbers of keys. -/
def graph? (register : Register K) : Option Digraph :=
  if ∀ u < register.above.size, ∀ v ∈ register.above.getD u [],
      u < register.keys.length ∧ v < register.keys.length then
    some ⟨Array.ofFn fun u : Fin register.keys.length => register.above.getD u []⟩
  else none

def normalize? (register : Register K) : Option (Register K) := do
  let graph ← register.graph?
  return { register with above := graph.normalize.rows }

def topologicalOrder? [Quotable K] (register : Register K) : Option (Except Fault (List K)) := do
  let graph ← register.graph?
  match graph.topologicalOrder with
  | .ok order =>
    let keys ← order.mapM fun v => register.keys[v]?
    return .ok keys
  | .error v =>
    let key ← register.keys[v]?
    return .error (.cycleDetected register.poset.describe (quote key))

theorem mapM_getElem? {keys : List K} {vs : List Nat} (h : ∀ v ∈ vs, v < keys.length) :
    (vs.mapM fun v => keys[v]?) = some (vs.filterMap fun v => keys[v]?) := by
  induction vs with
  | nil => rfl
  | cons v rest ih =>
    have hkey := List.getElem?_eq_getElem (h v List.mem_cons_self)
    rw [List.mapM_cons, List.filterMap_cons_some hkey, hkey,
      ih fun w hw => h w (List.mem_cons_of_mem v hw)]
    rfl

variable [DecidableEq K]

/-- The number of a key, which is the next one if the key is new. -/
def enter (register : Register K) (key : K) : Nat × Register K :=
  match register.numbers.find? key with
  | some u => (u, register)
  | none =>
    (register.keys.length,
      ⟨register.numbers.insert key register.keys.length, register.keys ++ [key],
        register.above.push []⟩)

def addKey (register : Register K) (key : K) : Register K := (register.enter key).2

def addEdge? (register : Register K) (lower upper : K) : Option (Register K) :=
  let (u, register) := register.enter lower
  let (v, register) := register.enter upper
  if u < register.above.size then
    some { register with
      above := register.above.modify u fun row => if v ∈ row then row else row ++ [v] }
  else none

def addKeys (register : Register K) (keys : List K) : Register K := keys.foldl addKey register

def addEdges? (register : Register K) (edges : List (K × K)) : Option (Register K) :=
  edges.foldlM (fun register edge => register.addEdge? edge.1 edge.2) register

def ofRows? (rows : List (List K)) : Option (Register K) := do
  let register ← (empty.addKeys rows.flatten).addEdges? (rows.flatMap Poset.chainPairs)
  register.normalize?

def ofEdges? (edges : List (K × K)) : Option (Register K) := empty.addEdges? edges

def declare? (register : Register K) : Declaration K → Option (Register K)
  | .key key => some (register.addKey key)
  | .edge lower upper => register.addEdge? lower upper
  | .rows rows => ofRows? rows
  | .edges edges => ofEdges? edges
  | .normalize => register.normalize?

def ofDeclarations? (declarations : List (Declaration K)) : Option (Register K) :=
  declarations.foldlM declare? empty

def successors? (register : Register K) (key : K) : Option (List K) :=
  match register.numbers.find? key with
  | some u => do
    let row ← register.above[u]?
    row.mapM fun v => register.keys[v]?
  | none => some []

/-- The register holds the order, and its table has each key with its place. -/
structure InStep (register : Register K) (poset : Poset K) : Prop where
  poset_eq : register.poset = poset
  numbers : ∀ key u, register.numbers.find? key = some u ↔ register.keys[u]? = some key

variable {register : Register K} {poset : Poset K}

theorem inStep_empty : (empty : Register K).InStep ∅ := by
  refine ⟨rfl, fun key u => ?_⟩
  rw [empty, Table.find?_empty, List.getElem?_nil]
  exact iff_of_false (Option.some_ne_none u).symm (Option.some_ne_none key).symm

namespace InStep

theorem keys_eq (h : register.InStep poset) : register.keys = poset.keys :=
  congrArg Poset.keys h.poset_eq

theorem above_eq (h : register.InStep poset) : register.above = poset.above :=
  congrArg Poset.above h.poset_eq

/-- A key is entered with the number that it has from then on. -/
theorem enter (h : register.InStep poset) (key : K) :
    (register.enter key).2.InStep (poset.addKey key) ∧
      (poset.addKey key).keys[(register.enter key).1]? = some key := by
  obtain ⟨rfl, hnumbers⟩ := h
  unfold Register.enter
  cases hkey : register.numbers.find? key with
  | some u =>
    have hplace := (hnumbers key u).1 hkey
    rw [Poset.addKey_of_mem (List.mem_of_getElem? hplace)]
    exact ⟨⟨rfl, hnumbers⟩, hplace⟩
  | none =>
    have hnew : key ∉ register.poset.keys := by
      intro hmem
      cases hkey.symm.trans ((hnumbers key _).2 (Poset.getElem?_idxOf hmem))
    rw [Poset.addKey_of_not_mem hnew]
    refine ⟨⟨rfl, fun other u => ?_⟩, List.getElem?_concat_length⟩
    have hconcat : (register.keys ++ [key])[u]? = some other ↔
        register.keys[u]? = some other ∨ u = register.keys.length ∧ key = other := by
      grind
    change (register.numbers.insert key register.keys.length).find? other = some u ↔
      (register.keys ++ [key])[u]? = some other
    rw [hconcat, Table.find?_insert, ← hnumbers other u]
    by_cases hother : other = key
    · subst hother
      simp [hkey, eq_comm]
    · simp [hother, Ne.symm hother]

theorem addKey (h : register.InStep poset) (key : K) :
    (register.addKey key).InStep (poset.addKey key) := (h.enter key).1

theorem addKeys (h : register.InStep poset) (hvalid : poset.Valid) (keys : List K) :
    (register.addKeys keys).InStep (poset.addKeys keys) ∧ (poset.addKeys keys).Valid := by
  induction keys generalizing register poset with
  | nil => exact ⟨h, hvalid⟩
  | cons key rest ih => exact ih (h.addKey key) (hvalid.addKey key)

/-- Both ends of an edge have their lists when the edge is added. -/
theorem addEdge? (h : register.InStep poset) (hvalid : poset.Valid) (lower upper : K) :
    ∃ after, register.addEdge? lower upper = some after ∧
      after.InStep (poset.addEdge lower upper) := by
  obtain ⟨hfirst, hu⟩ := h.enter lower
  obtain ⟨hboth, hv⟩ := hfirst.enter upper
  have hvalid' := (hvalid.addKey lower).addKey upper
  have hu' : ((poset.addKey lower).addKey upper).keys[(register.enter lower).1]? = some lower :=
    Poset.getElem?_addKey hu
  have hlt : (register.enter lower).1 < ((register.enter lower).2.enter upper).2.above.size := by
    rw [hboth.above_eq, hvalid'.size]
    exact (List.getElem?_eq_some_iff.1 hu').1
  refine ⟨_, if_pos hlt, ?_, hboth.numbers⟩
  rw [Poset.addEdge_eq_insertEdge, hvalid'.idxOf_eq hu', hvalid'.idxOf_eq hv, ← hboth.poset_eq]
  rfl

theorem addEdges? (h : register.InStep poset) (hvalid : poset.Valid) (edges : List (K × K)) :
    ∃ after, register.addEdges? edges = some after ∧ after.InStep (poset.addEdges edges) := by
  induction edges generalizing register poset with
  | nil => exact ⟨register, rfl, h⟩
  | cons edge rest ih =>
    obtain ⟨next, hnext, hstep⟩ := h.addEdge? hvalid edge.1 edge.2
    obtain ⟨after, hafter, hlast⟩ := ih hstep (hvalid.addEdge edge.1 edge.2)
    refine ⟨after, ?_, hlast⟩
    rw [Register.addEdges?, List.foldlM_cons, hnext]
    exact hafter

theorem graph?_eq (h : register.InStep poset) (hvalid : poset.Valid) :
    register.graph? = some poset.graph := by
  have hall : ∀ u < poset.above.size, ∀ v ∈ poset.above.getD u [],
      u < poset.keys.length ∧ v < poset.keys.length :=
    fun u hu v hv => ⟨hvalid.size ▸ hu, hvalid.bound u v hv⟩
  unfold graph?
  rw [h.above_eq, h.keys_eq, if_pos hall, ← hvalid.size]
  refine congrArg some (Digraph.eq_of_next_eq Array.size_ofFn fun u => ?_)
  simp only [Digraph.next, Poset.graph, Array.getD_eq_getD_getElem?]
  by_cases hu : u < poset.above.size <;> simp [hu]

theorem normalize? (h : register.InStep poset) (hvalid : poset.Valid) :
    ∃ after, register.normalize? = some after ∧ after.InStep poset.normalize := by
  refine ⟨{ register with above := poset.graph.normalize.rows }, ?_, ?_, h.numbers⟩
  · rw [Register.normalize?, h.graph?_eq hvalid]
    rfl
  · rw [← h.poset_eq]
    rfl

/-- Whatever is declared, no look-up fails and the parts stay in step. -/
theorem declare? (h : register.InStep poset) (hvalid : poset.Valid) (declaration : Declaration K) :
    ∃ after, register.declare? declaration = some after ∧
      after.InStep (poset.declare declaration) := by
  cases declaration with
  | key key => exact ⟨_, rfl, h.addKey key⟩
  | edge lower upper => exact h.addEdge? hvalid lower upper
  | rows rows =>
    obtain ⟨hkeys, hvalid'⟩ := inStep_empty.addKeys Poset.valid_empty rows.flatten
    obtain ⟨chains, hchains, hstep⟩ := hkeys.addEdges? hvalid' (rows.flatMap Poset.chainPairs)
    obtain ⟨after, hafter, hlast⟩ := hstep.normalize? (Poset.declared_chains rows).valid
    refine ⟨after, ?_, hlast⟩
    rw [Register.declare?, ofRows?, hchains]
    exact hafter
  | edges edges => exact inStep_empty.addEdges? Poset.valid_empty edges
  | normalize => exact h.normalize? hvalid

/-- All keys above a key are found. -/
theorem successors?_eq (h : register.InStep poset) (hvalid : poset.Valid) (key : K) :
    register.successors? key = some (poset.successors key) := by
  have hnumber : register.numbers.find? key = poset.number? key := by
    ext u
    rw [h.numbers, h.keys_eq, hvalid.number?_eq_some_iff]
  unfold successors? Poset.successors
  rw [hnumber, h.above_eq, h.keys_eq]
  cases hkey : poset.number? key with
  | none => rfl
  | some u =>
    have hlt : u < poset.above.size := by
      rw [hvalid.size]
      exact (List.getElem?_eq_some_iff.1 (hvalid.number?_eq_some_iff.1 hkey)).1
    have hrow : poset.above[u]? = some (poset.graph.next u) := by
      simp [Poset.graph, Digraph.next, hlt]
    simp only [hrow]
    exact mapM_getElem? (hvalid.bound u)

/-- All keys of a sorted list of numbers are found, and so is the key that a fault names. -/
theorem topologicalOrder?_eq [Quotable K] (h : register.InStep poset) (hvalid : poset.Valid) :
    register.topologicalOrder? = some poset.topologicalOrder := by
  unfold topologicalOrder? Poset.topologicalOrder
  rw [h.graph?_eq hvalid, h.keys_eq, h.poset_eq]
  rcases poset.graph.topologicalOrder_cases with ⟨numbers, hsorted, hsorts⟩ | ⟨v, hv, hfails, _⟩
  · have hfound : ∀ v ∈ numbers, v < poset.keys.length := by
      intro v hv
      exact hvalid.size ▸ List.mem_range.1 ((hsorts.mem_iff v).1 hv)
    simp [hsorted, mapM_getElem? hfound]
  · obtain ⟨key, hkey⟩ := hvalid.exists_key hv
    simp [hfails, hkey]

end InStep

theorem inStep_ofDeclarations (declarations : List (Declaration K)) :
    ∃ register, ofDeclarations? declarations = some register ∧
      register.InStep (Poset.ofDeclarations declarations) := by
  have hrun : ∀ (register : Register K) (poset : Poset K), poset.Declared → register.InStep poset →
      ∃ after, declarations.foldlM Register.declare? register = some after ∧
        after.InStep (declarations.foldl Poset.declare poset) := by
    induction declarations with
    | nil => exact fun register _ _ h => ⟨register, rfl, h⟩
    | cons declaration rest ih =>
      intro register poset hdeclared h
      obtain ⟨next, hnext, hstep⟩ := h.declare? hdeclared.valid declaration
      obtain ⟨after, hafter, hlast⟩ := ih next _ (hdeclared.declare declaration) hstep
      refine ⟨after, ?_, hlast⟩
      rw [List.foldlM_cons, hnext]
      exact hafter
  exact hrun empty ∅ .empty inStep_empty

/-- After any declarations the keys are those that were mentioned, each at its first place, and have
their places as numbers; each has one list of numbers of keys, without repeats. Another key or edge
changes no number and takes no edge away, and as long as nothing was normalised the edges are the
pairs that were declared. The successors of a key are keys, each once, and what is no key has none.
Kept in three parts the order stays in step with this, and no look-up by a number fails: not while
it is declared, not when successors are asked for, and not when the keys are sorted. -/
theorem stays_in_step [Quotable K] (declarations : List (Declaration K)) :
    let poset := Poset.ofDeclarations declarations
    let account := Account.of declarations
    (poset.keys.Nodup ∧ poset.keys = (OrderedSet.ofList account.mentioned).toList) ∧
    (∀ key u, poset.number? key = some u ↔ poset.keys[u]? = some key) ∧
    (poset.above.size = poset.keys.length ∧ ∀ u, (poset.graph.next u).Nodup ∧
      ∀ v ∈ poset.graph.next u, v < poset.keys.length) ∧
    ((∀ key, poset.Keeps (poset.addKey key)) ∧
      ∀ lower upper, poset.Keeps (poset.addEdge lower upper)) ∧
    (account.isNormalized = false → ∀ lower upper,
      upper ∈ poset.successors lower ↔ (lower, upper) ∈ account.pairs) ∧
    (∀ key, (poset.successors key).Nodup ∧ (∀ other ∈ poset.successors key, other ∈ poset.keys) ∧
      (key ∉ poset.keys → poset.successors key = [])) ∧
    ∃ register, ofDeclarations? declarations = some register ∧ register.poset = poset ∧
      (∀ key u, register.numbers.find? key = some u ↔ register.keys[u]? = some key) ∧
      (∀ key, register.successors? key = some (poset.successors key)) ∧
      register.topologicalOrder? = some poset.topologicalOrder := by
  intro poset account
  obtain ⟨hdeclared, htallies⟩ := Poset.tallies_ofDeclarations declarations
  obtain ⟨register, hregister, hstep⟩ := inStep_ofDeclarations declarations
  have hvalid : poset.Valid := hdeclared.valid
  refine ⟨⟨hvalid.nodup, htallies.keys⟩, fun key u => hvalid.number?_eq_some_iff,
    ⟨hvalid.size, fun u => ⟨hvalid.rows u, hvalid.bound u⟩⟩,
    ⟨poset.keeps_addKey, hvalid.keeps_addEdge⟩, htallies.steps, fun key => ⟨?_, ?_, ?_⟩, register,
    hregister, hstep.poset_eq, hstep.numbers, hstep.successors?_eq hvalid,
    hstep.topologicalOrder?_eq hvalid⟩
  · exact hvalid.nodup_successors key
  · exact fun other hother => Poset.mem_keys_of_mem_successors hother
  · exact Poset.successors_of_not_mem

end Register

end Downset
