import Downset.Proofs.Arena.Checked
import Downset.Proofs.Build.Consistency

/-!
# Walks with checked accesses

A checked walk goes where a walk goes, but every node that it looks at or links is accessed by a
slot that must lie in the array and hold a node of the right kind; if not, the walk comes to
nothing. From a consistent arena this never happens, whether the walk answers or stops at a cycle,
so that the outcome is that of the walk without checks.
-/

namespace Downset

/-- Steps that build an arena, may stop with a key that was met twice on one path, and come to
nothing if an access to the arena fails. -/
abbrev Checked (K V : Type) := ExceptT K (StateT (Arena K V) Option)

namespace Checked

variable {K V α β : Type}

def look (read : Arena K V → Option α) : Checked K V α :=
  ExceptT.mk fun arena => (read arena).map fun answer => (.ok answer, arena)

def alter (change : Arena K V → Option (Arena K V)) : Checked K V Unit :=
  ExceptT.mk fun arena => (change arena).map fun after => (.ok (), after)

def descend (walk : α → Checked K V (OrderedSet NodeId)) (id : NodeId) : List α → Checked K V Unit
  | [] => pure ()
  | next :: rest => do
    let found ← walk next
    alter fun arena => arena.linkAll? id found.toList
    descend walk id rest

def gather (walk : α → Checked K V (OrderedSet NodeId)) (found : OrderedSet NodeId) :
    List α → Checked K V (OrderedSet NodeId)
  | [] => pure found
  | next :: rest => do
    let more ← walk next
    gather walk (found ∪ more) rest

section Walk

variable [DecidableEq K]

def addNode (key : K) (node : Node K V) : Checked K V NodeId := do
  let id := (← get).nextId
  modify fun arena => arena.addNode key node
  return id

def reach (order : KeyOrder K) (filter : KeyFilter K) (path : List K) (key : K) :
    Checked K V (OrderedSet NodeId) :=
  if _ : key ∈ path then throw key
  else do
    match ← look fun arena => arena.known? key with
    | some frontier => return frontier
    | none =>
      if filter.accepts key then do
        let id ← addNode key (.newQuery key)
        descend (fun next : { next // next ∈ order.successors key } =>
          reach order filter (key :: path) next.1) id (order.successors key).attach
        return .singleton id
      else do
        let frontier ← gather (fun next : { next // next ∈ order.successors key } =>
          reach order filter (key :: path) next.1) ∅ (order.successors key).attach
        modify fun arena => arena.passOver key frontier
        return frontier
termination_by order.extent path key
decreasing_by all_goals exact KeyOrder.extent_lt ‹key ∉ path› next.2

def takeFrontier (order : KeyOrder K) (filter : KeyFilter K) (key : K) :
    Checked K V (OrderedSet NodeId) := do
  match (← get).skipped.find? key with
  | some frontier =>
    modify fun arena => arena.forget key
    return frontier
  | none => gather (reach order filter [key]) ∅ (order.successors key)

def materialize (order : KeyOrder K) (filter : KeyFilter K) (key : K) : Checked K V NodeId := do
  if filter.accepts key then
    let id ← addNode key (.newQuery key)
    descend (reach order filter [key]) id (order.successors key)
    return id
  else
    let frontier ← takeFrontier order filter key
    if frontier.isEmpty then
      modify fun arena => arena.addDeadEnd key
      return .sink
    else
      let id ← addNode key (.newLeaf key)
      alter fun arena => arena.linkAll? id frontier.toList
      return id

def locate (order : KeyOrder K) (filter : KeyFilter K) (key : K) : Checked K V NodeId := do
  match (← get).slots.find? key with
  | some id => return id
  | none => materialize order filter key

end Walk

/-- From this arena no access fails, and the outcome is that of the build without checks. -/
def Passes (checked : Checked K V α) (build : Build K V α) (arena : Arena K V) : Prop :=
  checked.run arena = some (build.run arena)

section Rules

variable {checked : Checked K V α} {build : Build K V α} {arena : Arena K V}
  {done : α → Arena K V → Prop} {stuck : K → Arena K V → Prop}

theorem Passes.bind {rest : α → Checked K V β} {rest' : α → Build K V β}
    (h : checked.Passes build arena) (hends : build.Ends arena done stuck)
    (hrest : ∀ answer after, done answer after → (rest answer).Passes (rest' answer) after) :
    (checked >>= rest).Passes (build >>= rest') arena := by
  have hrun : (checked >>= rest).run arena =
      (checked.run arena).bind fun
        | (.ok answer, after) => (rest answer).run after
        | (.error twice, after) => some (.error twice, after) := by
    change (checked.run arena).bind _ = _
    rcases checked.run arena with _ | ⟨answer | answer, after⟩ <;> rfl
  unfold Passes at h hrest ⊢
  unfold Build.Ends at hends
  rw [hrun, h, Build.run_bind]
  rcases hbuild : build.run arena with ⟨twice | answer, after⟩
  · rfl
  · rw [hbuild] at hends
    exact hrest answer after hends

theorem passes_get {rest : Arena K V → Checked K V α} {rest' : Arena K V → Build K V α}
    (h : (rest arena).Passes (rest' arena) arena) : (get >>= rest).Passes (get >>= rest') arena := h

theorem passes_look {read : Arena K V → Option β} {answer : β} {rest : β → Checked K V α}
    {rest' : Arena K V → Build K V α} (hread : read arena = some answer)
    (h : (rest answer).Passes (rest' arena) arena) :
    (look read >>= rest).Passes (get >>= rest') arena := by
  have hlook : (look read >>= rest).run arena = (rest answer).run arena := by
    change ((read arena).map _).bind _ = _
    rw [hread]
    rfl
  exact hlook.trans h

theorem passes_alter {change : Arena K V → Option (Arena K V)} {change' : Arena K V → Arena K V}
    {rest : Unit → Checked K V α} {rest' : Unit → Build K V α}
    (hchange : change arena = some (change' arena))
    (h : (rest ()).Passes (rest' ()) (change' arena)) :
    (alter change >>= rest).Passes (modify change' >>= rest') arena := by
  have halter : (alter change >>= rest).run arena = (rest ()).run (change' arena) := by
    change ((change arena).map _).bind _ = _
    rw [hchange]
    rfl
  exact halter.trans h

theorem passes_addNode [DecidableEq K] {key : K} {node : Node K V} {rest : NodeId → Checked K V α}
    {rest' : NodeId → Build K V α}
    (h : (rest arena.nextId).Passes (rest' arena.nextId) (arena.addNode key node)) :
    (addNode key node >>= rest).Passes (Build.addNode key node >>= rest') arena := h

end Rules

section Loops

variable {walk : α → Checked K V (OrderedSet NodeId)} {walk' : α → Build K V (OrderedSet NodeId)}
  {keys : List α}

/-- No access fails in either loop if none does in a walk from an arena with a property that walks
keep, and the node may be linked to what they find. -/
theorem passes_descend {id : NodeId} (Holds : Arena K V → Prop)
    (step : ∀ next ∈ keys, ∀ arena, Holds arena → (walk next).Passes (walk' next) arena ∧
      (walk' next).Ends arena (fun found after => (∀ upper ∈ found, after.Linkable id upper) ∧
        Holds (after.linkAll id found.toList)) fun _ _ => True)
    {arena : Arena K V} (h : Holds arena) :
    (descend walk id keys).Passes (Build.descend walk' id keys) arena := by
  induction keys generalizing arena with
  | nil => rfl
  | cons next rest ih =>
    obtain ⟨hpasses, hends⟩ := step next List.mem_cons_self arena h
    have hrest := fun later hlater => step later (List.mem_cons_of_mem next hlater)
    refine hpasses.bind hends ?_
    rintro found after ⟨hlinkable, hafter⟩
    exact passes_alter (Arena.linkAll?_eq hlinkable) (ih hrest hafter)

theorem passes_gather (Holds : Arena K V → Prop)
    (step : ∀ next ∈ keys, ∀ arena, Holds arena → (walk next).Passes (walk' next) arena ∧
      (walk' next).Ends arena (fun _ after => Holds after) fun _ _ => True)
    {found : OrderedSet NodeId} {arena : Arena K V} (h : Holds arena) :
    (gather walk found keys).Passes (Build.gather walk' found keys) arena := by
  induction keys generalizing found arena with
  | nil => rfl
  | cons next rest ih =>
    obtain ⟨hpasses, hends⟩ := step next List.mem_cons_self arena h
    have hrest := fun later hlater => step later (List.mem_cons_of_mem next hlater)
    exact hpasses.bind hends fun more after hafter => ih hrest hafter

end Loops

variable [DecidableEq K] {order : KeyOrder K} {filter : KeyFilter K} {dropped : K → K → Prop}
  {path : List K} {arena : Arena K V} {key next : K} {id : NodeId} {found : OrderedSet NodeId}

open Arena Build

/-- A node under construction may be linked to what a walk from a successor of its key finds. -/
theorem ends_linkable {walk : Build K V (OrderedSet NodeId)}
    (hwalk : Explores order filter dropped (key :: path) arena next walk)
    (hnext : next ∈ order.successors key) (hid : arena.slots.find? key = some id)
    (hne : id ≠ .sink) :
    walk.Ends arena
      (fun found after => (∀ upper ∈ found, after.Linkable id upper) ∧
        Consistent order filter dropped (key :: path) (after.linkAll id found.toList) ∧
        (after.linkAll id found.toList).slots.find? key = some id)
      (fun _ _ => True) := by
  refine hwalk.mono ?_ fun _ _ _ => trivial
  rintro found after ⟨hafter, hwalked, hfound⟩
  have hslot := hwalked.slot hid
  have hkey : (after.node id).key? = some key := hafter.key_of_slot hslot hne
  have hlinked := (hafter.linkAll found.toList List.mem_cons_self hkey fun upper hupper => by
    obtain ⟨other, hother, hpath, hfrontier⟩ := hfound.sound upper hupper
    exact ⟨other, hother, hpath, next, hnext, hfrontier⟩).1
  refine ⟨fun upper hupper => ⟨kind_ne_sink hkey, ?_⟩, hlinked, ?_⟩
  · exact hfound.kind_eq_query hafter.toWellFormed hupper
  · rw [slots_linkAll]
    exact hslot

section Successors

variable {keys : List α} {keyOf : α → K} {walk : α → Checked K V (OrderedSet NodeId)}
  {walk' : α → Build K V (OrderedSet NodeId)}
  (hkeys : ∀ next ∈ keys, keyOf next ∈ order.successors key)
  (hwalk : ∀ next ∈ keys, ∀ arena, Consistent order filter dropped (key :: path) arena →
    (walk next).Passes (walk' next) arena ∧
      Explores order filter dropped (key :: path) arena (keyOf next) (walk' next))
  (h : Consistent order filter dropped (key :: path) arena)

include hkeys hwalk h

theorem passes_descend_successors (hid : arena.slots.find? key = some id) (hne : id ≠ .sink) :
    (descend walk id keys).Passes (Build.descend walk' id keys) arena := by
  refine passes_descend (fun after => Consistent order filter dropped (key :: path) after ∧
    after.slots.find? key = some id) ?_ ⟨h, hid⟩
  rintro next hnext before ⟨hbefore, hslot⟩
  obtain ⟨hpasses, hexplores⟩ := hwalk next hnext before hbefore
  exact ⟨hpasses, ends_linkable hexplores (hkeys next hnext) hslot hne⟩

omit hkeys in
theorem passes_gather_successors :
    (gather walk ∅ keys).Passes (Build.gather walk' ∅ keys) arena := by
  refine passes_gather (Consistent order filter dropped (key :: path)) ?_ h
  intro next hnext before hbefore
  obtain ⟨hpasses, hexplores⟩ := hwalk next hnext before hbefore
  exact ⟨hpasses, hexplores.mono (fun _ _ hdone => hdone.1) fun _ _ _ => trivial⟩

end Successors

/-- From a consistent arena no access of a walk fails. -/
theorem passes_reach (h : Consistent order filter dropped path arena)
    (hpath : ∀ p ∈ path, Above order.successors p key) :
    (reach order filter path key).Passes (Build.reach order filter path key) arena := by
  induction path, key using order.walk_induction generalizing arena with
  | step path key ih =>
    rw [reach, Build.reach]
    by_cases hkey : key ∈ path
    · rw [dif_pos hkey, dif_pos hkey]
      rfl
    · rw [dif_neg hkey, dif_neg hkey]
      refine passes_look h.known?_eq ?_
      cases hmet : arena.frontier? key with
      | some frontier => rfl
      | none =>
        have hwalk : ∀ next ∈ (order.successors key).attach, ∀ arena : Arena K V,
            Consistent order filter dropped (key :: path) arena →
              (reach order filter (key :: path) next.1).Passes
                  (Build.reach order filter (key :: path) next.1) arena ∧
                Explores order filter dropped (key :: path) arena next.1
                  (Build.reach order filter (key :: path) next.1) := by
          intro next _ arena harena
          exact ⟨ih hkey next.1 next.2 harena (above_cons hpath next.2),
            explores_reach harena (above_cons hpath next.2)⟩
        by_cases haccepts : filter.accepts key = true
        · rw [if_pos haccepts, if_pos haccepts]
          obtain ⟨hstart, hid⟩ := consistent_addQuery h (fun hknown => hknown hmet) haccepts
          refine passes_addNode ?_
          exact (passes_descend_successors (fun next _ => next.2) hwalk hstart hid
            h.nextId_ne_sink).bind ends_true fun _ _ _ => rfl
        · rw [if_neg haccepts, if_neg haccepts]
          have hstart := h.cons (frontier?_eq_none_iff.1 hmet).1
          exact (passes_gather_successors hwalk hstart).bind ends_true fun _ _ _ => rfl

theorem passes_takeFrontier (h : Consistent order filter dropped [] arena)
    (hslot : arena.slots.find? key = none) (hrejected : filter.accepts key = false)
    (hwalk : ∀ next ∈ order.successors key, ∀ arena : Arena K V,
      Consistent order filter dropped [key] arena →
        (reach order filter [key] next).Passes (Build.reach order filter [key] next) arena ∧
          Explores order filter dropped [key] arena next (Build.reach order filter [key] next)) :
    (takeFrontier order filter key).Passes (Build.takeFrontier order filter key) arena ∧
      (Build.takeFrontier order filter key).Ends arena
        (fun found after => ∀ m ∈ found, (after.node m).kind = .query) fun _ _ => True := by
  unfold takeFrontier Build.takeFrontier
  rw [ends_bind, ends_get]
  cases hskipped : arena.skipped.find? key with
  | some found =>
    refine ⟨passes_get ?_, fun m hm => (h.remembered hskipped).kind_eq_query h.toWellFormed hm⟩
    rw [hskipped]
    rfl
  | none =>
    have hunmet : ¬ arena.Met key := not_met_iff.2 ⟨hslot, hskipped⟩
    refine ⟨passes_get ?_, ?_⟩
    · rw [hskipped]
      exact passes_gather_successors hwalk (h.cons hslot)
    · refine (gather_consistent (fun next hnext arena harena => (hwalk next hnext arena harena).2)
        h hunmet hrejected).mono ?_ fun _ _ _ => trivial
      rintro found after ⟨hafter, _, hfound⟩ m hm
      exact hfound.kind_eq_query hafter.toWellFormed hm

/-- No access fails while a key is located. -/
theorem passes_locate (h : Consistent order filter dropped [] arena) :
    (locate order filter key).Passes (Build.locate order filter key) arena := by
  have hwalk : ∀ next ∈ order.successors key, ∀ arena : Arena K V,
      Consistent order filter dropped [key] arena →
        (reach order filter [key] next).Passes (Build.reach order filter [key] next) arena ∧
          Explores order filter dropped [key] arena next (Build.reach order filter [key] next) := by
    intro next hnext arena harena
    have hpath := above_cons (fun p hp => absurd hp List.not_mem_nil) hnext
    exact ⟨passes_reach harena hpath, explores_reach harena hpath⟩
  unfold locate Build.locate
  refine passes_get ?_
  cases hslot : arena.slots.find? key with
  | some id => rfl
  | none =>
    unfold materialize Build.materialize
    by_cases haccepts : filter.accepts key = true
    · rw [if_pos haccepts, if_pos haccepts]
      obtain ⟨hstart, hid⟩ := consistent_addQuery h (not_met_of_accepts h hslot haccepts) haccepts
      refine passes_addNode ?_
      exact (passes_descend_successors (fun _ hnext => hnext) hwalk hstart hid
        h.nextId_ne_sink).bind ends_true fun _ _ _ => rfl
    · rw [if_neg haccepts, if_neg haccepts]
      obtain ⟨hpasses, hends⟩ :=
        passes_takeFrontier h hslot (Bool.not_eq_true _ ▸ haccepts) hwalk
      refine hpasses.bind hends fun found after hfound => ?_
      by_cases hempty : found.isEmpty = true
      · rw [if_pos hempty, if_pos hempty]
        rfl
      · rw [if_neg hempty, if_neg hempty]
        refine passes_addNode (passes_alter (linkAll?_eq fun upper hupper => ?_) rfl)
        exact linkable_addNode NodeKind.noConfusion (hfound upper hupper)

end Checked

end Downset
