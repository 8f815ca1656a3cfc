import Downset.Arena.Walk

/-!
# How a build ends

A build starts from an arena and ends with an answer, or with a key that was met twice on
one path; in both cases it leaves an arena behind. `Ends` says what holds at either end.
There is one rule for each way of putting builds together, so that statements about walks
follow the text of the walk.
-/

namespace Downset

namespace Arena

variable {K V : Type}

def linkAll (arena : Arena K V) (lower : NodeId) (uppers : List NodeId) : Arena K V :=
  uppers.foldl (fun arena upper => arena.link lower upper) arena

variable [DecidableEq K]

def passOver (arena : Arena K V) (key : K) (frontier : OrderedSet NodeId) : Arena K V :=
  if frontier.isEmpty then arena.addDeadEnd key else arena.remember key frontier

/-- Gives a slot to a key that cannot be queried, once the nodes beyond it are known. -/
def place (arena : Arena K V) (key : K) (frontier : OrderedSet NodeId) : NodeId × Arena K V :=
  if frontier.isEmpty then (.sink, arena.addDeadEnd key)
  else (arena.nextId, (arena.addNode key (.newLeaf key)).linkAll arena.nextId frontier.toList)

theorem frontier?_eq_none_iff {arena : Arena K V} {key : K} :
    arena.frontier? key = none ↔
      arena.slots.find? key = none ∧ arena.skipped.find? key = none := by
  cases h : arena.slots.find? key <;> simp [frontier?, h]

end Arena

namespace Build

variable {K V α β : Type}

/-- From this arena the build ends in a state with the first property if it answers, and in
one with the second property if it stops at a key met twice. -/
def Ends (build : Build K V α) (arena : Arena K V) (done : α → Arena K V → Prop)
    (stuck : K → Arena K V → Prop) : Prop :=
  match build.run arena with
  | (.ok answer, after) => done answer after
  | (.error twice, after) => stuck twice after

section Rules

variable {build : Build K V α} {arena : Arena K V} {done done' : α → Arena K V → Prop}
  {stuck stuck' : K → Arena K V → Prop}

theorem Ends.mono (h : build.Ends arena done stuck)
    (hdone : ∀ answer after, done answer after → done' answer after)
    (hstuck : ∀ twice after, stuck twice after → stuck' twice after) :
    build.Ends arena done' stuck' := by
  unfold Ends at h ⊢
  rcases hrun : build.run arena with ⟨answer | answer, after⟩ <;> rw [hrun] at h
  · exact hstuck _ _ h
  · exact hdone _ _ h

theorem Ends.and (h : build.Ends arena done stuck) (h' : build.Ends arena done' stuck') :
    build.Ends arena (fun answer after => done answer after ∧ done' answer after)
      (fun twice after => stuck twice after ∧ stuck' twice after) := by
  unfold Ends at h h' ⊢
  rcases hrun : build.run arena with ⟨answer | answer, after⟩ <;> rw [hrun] at h h'
  · exact ⟨h, h'⟩
  · exact ⟨h, h'⟩

theorem Ends.under {p : Prop} (h : p → build.Ends arena done stuck) :
    build.Ends arena (fun answer after => p → done answer after)
      (fun twice after => p → stuck twice after) := by
  unfold Ends at h ⊢
  rcases hrun : build.run arena with ⟨answer | answer, after⟩ <;> rw [hrun] at h
  · exact h
  · exact h

theorem ends_true : build.Ends arena (fun _ _ => True) fun _ _ => True := by
  unfold Ends
  split <;> trivial

@[simp] theorem ends_pure (answer : α) :
    (pure answer : Build K V α).Ends arena done stuck ↔ done answer arena := Iff.rfl

@[simp] theorem ends_throw (twice : K) :
    (throw twice : Build K V α).Ends arena done stuck ↔ stuck twice arena := Iff.rfl

@[simp] theorem ends_get {done : Arena K V → Arena K V → Prop} :
    (get : Build K V (Arena K V)).Ends arena done stuck ↔ done arena arena := Iff.rfl

@[simp] theorem ends_modify {done : Unit → Arena K V → Prop} (change : Arena K V → Arena K V) :
    (modify change : Build K V Unit).Ends arena done stuck ↔ done () (change arena) := Iff.rfl

theorem run_bind {rest : α → Build K V β} : (build >>= rest).run arena =
    match build.run arena with
    | (.ok answer, after) => (rest answer).run after
    | (.error twice, after) => (.error twice, after) := by
  change (ExceptT.run (build >>= rest)) arena = _
  rw [ExceptT.run_bind]
  change (match (build.run arena).1 with
    | .ok answer => (rest answer).run
    | .error twice => pure (.error twice)) (build.run arena).2 = _
  rcases build.run arena with ⟨answer | answer, after⟩ <;> rfl

@[simp] theorem ends_bind {rest : α → Build K V β} {done : β → Arena K V → Prop} :
    (build >>= rest).Ends arena done stuck ↔
      build.Ends arena (fun answer after => (rest answer).Ends after done stuck) stuck := by
  unfold Ends
  rw [run_bind]
  rcases build.run arena with ⟨answer | answer, after⟩ <;> rfl

end Rules

section Loops

variable {walk : α → Build K V (OrderedSet NodeId)} {stuck : K → Arena K V → Prop}

/-- What holds of the keys still to do and of the arena, and is kept by each key that is done
and linked, holds at the end with nothing to do. -/
theorem ends_descend {id : NodeId} (Holds : List α → Arena K V → Prop) {keys : List α}
    (step : ∀ next ∈ keys, ∀ rest arena, Holds (next :: rest) arena →
      (walk next).Ends arena
        (fun found after => Holds rest (after.linkAll id found.toList)) stuck)
    {arena : Arena K V} (h : Holds keys arena) :
    (descend walk id keys).Ends arena (fun _ after => Holds [] after) stuck := by
  induction keys generalizing arena with
  | nil => exact h
  | cons next rest ih =>
    have hnext := step next List.mem_cons_self rest arena h
    have hrest := fun later hlater => step later (List.mem_cons_of_mem next hlater)
    simp only [descend, linkAll, ends_bind, ends_modify]
    exact hnext.mono (fun _ _ hdone => ih hrest hdone) fun _ _ hstuck => hstuck

/-- What holds of the keys still to do, of what was found so far and of the arena, and is kept
by each key that is done, holds at the end with nothing to do. -/
theorem ends_gather (Holds : List α → OrderedSet NodeId → Arena K V → Prop) {keys : List α}
    (step : ∀ next ∈ keys, ∀ rest found arena, Holds (next :: rest) found arena →
      (walk next).Ends arena (fun more after => Holds rest (found ∪ more) after) stuck)
    {found : OrderedSet NodeId} {arena : Arena K V} (h : Holds keys found arena) :
    (gather walk found keys).Ends arena (fun all after => Holds [] all after) stuck := by
  induction keys generalizing found arena with
  | nil => exact h
  | cons next rest ih =>
    have hnext := step next List.mem_cons_self rest found arena h
    have hrest := fun later hlater => step later (List.mem_cons_of_mem next hlater)
    simp only [gather, ends_bind]
    exact hnext.mono (fun _ _ hdone => ih hrest hdone) fun _ _ hstuck => hstuck

/-- The loops that link a node and that collect what is found end alike, for any node to link
and whatever was found before. -/
structure EndsLoops (walk : α → Build K V (OrderedSet NodeId)) (keys : List α) (arena : Arena K V)
    (done : Arena K V → Prop) (stuck : K → Arena K V → Prop) : Prop where
  descend : ∀ id, (descend walk id keys).Ends arena (fun _ after => done after) stuck
  gather : ∀ found, (gather walk found keys).Ends arena (fun _ after => done after) stuck

theorem EndsLoops.mono {keys : List α} {arena : Arena K V} {done done' : Arena K V → Prop}
    (h : EndsLoops walk keys arena done stuck) (hdone : ∀ after, done after → done' after) :
    EndsLoops walk keys arena done' stuck where
  descend id := (h.descend id).mono (fun _ after => hdone after) fun _ _ hstuck => hstuck
  gather found := (h.gather found).mono (fun _ after => hdone after) fun _ _ hstuck => hstuck

/-- What depends neither on links nor on what was found is kept by both loops if each walk keeps
it. -/
theorem endsLoops (Holds : List α → Arena K V → Prop) {keys : List α}
    (link : ∀ todo arena lower uppers, Holds todo arena → Holds todo (arena.linkAll lower uppers))
    (step : ∀ next ∈ keys, ∀ rest arena, Holds (next :: rest) arena →
      (walk next).Ends arena (fun _ after => Holds rest after) stuck)
    {arena : Arena K V} (h : Holds keys arena) : EndsLoops walk keys arena (Holds []) stuck where
  descend id := by
    apply ends_descend Holds _ h
    intro next hnext rest before hbefore
    exact (step next hnext rest before hbefore).mono (fun _ after => link rest after id _)
      fun _ _ hstuck => hstuck
  gather found := by
    apply ends_gather (fun todo _ after => Holds todo after) _ h
    intro next hnext rest _ before hbefore
    exact step next hnext rest before hbefore

/-- With one key done, each key is still to do or has what the keys that are done have. -/
theorem rest_or_done {all rest : List α} {Done : α → Prop} (next : α) (hnext : Done next)
    (htodo : ∀ other ∈ all, other ∈ next :: rest ∨ Done other) :
    ∀ other ∈ all, other ∈ rest ∨ Done other := by
  intro other hother
  rcases htodo other hother with hmem | hdone
  · rcases List.mem_cons.1 hmem with rfl | hmem
    · exact .inr hnext
    · exact .inl hmem
  · exact .inr hdone

end Loops

section Steps

variable [DecidableEq K] {order : KeyOrder K} {filter : KeyFilter K} {path : List K} {key : K}
  {arena : Arena K V} {stuck : K → Arena K V → Prop}

/-- The four ways of one key of a walk: it stands on the path, it was met before, it becomes a
query node, or it is passed over. -/
theorem ends_reach {done : OrderedSet NodeId → Arena K V → Prop}
    (again : key ∈ path → stuck key arena)
    (known : key ∉ path → ∀ frontier, arena.frontier? key = some frontier → done frontier arena)
    (query : key ∉ path → arena.frontier? key = none → filter.accepts key = true →
      (descend (reach order filter (key :: path)) arena.nextId (order.successors key)).Ends
        (arena.addNode key (.newQuery key)) (fun _ after => done (.singleton arena.nextId) after)
        stuck)
    (pass : key ∉ path → arena.frontier? key = none → filter.accepts key = false →
      (gather (reach order filter (key :: path)) ∅ (order.successors key)).Ends arena
        (fun frontier after => done frontier (after.passOver key frontier)) stuck) :
    (reach order filter path key).Ends arena done stuck := by
  rw [reach_eq]
  by_cases hkey : key ∈ path
  · rw [if_pos hkey, ends_throw]
    exact again hkey
  rw [if_neg hkey]
  simp only [ends_bind, ends_get]
  cases hfrontier : arena.frontier? key with
  | some frontier => exact known hkey frontier hfrontier
  | none =>
    cases hfilter : filter.accepts key with
    | true =>
      simp only [if_true, addNode, ends_bind, ends_get, ends_modify, ends_pure]
      exact query hkey hfrontier hfilter
    | false =>
      simp only [Bool.false_eq_true, if_false, passOver, ends_bind, ends_modify, ends_pure]
      exact pass hkey hfrontier hfilter

theorem ends_place {done : NodeId → Arena K V → Prop} {frontier : OrderedSet NodeId}
    (h : done (arena.place key frontier).1 (arena.place key frontier).2) :
    (if frontier.isEmpty = true then do
        modify fun arena => arena.addDeadEnd key
        pure NodeId.sink
      else do
        let id ← addNode key (.newLeaf key)
        linkAll id frontier.toList
        pure id : Build K V NodeId).Ends arena done stuck := by
  by_cases hempty : frontier.isEmpty = true
  · rw [if_pos hempty]
    simp only [Arena.place, hempty, if_true] at h
    simp only [ends_bind, ends_modify, ends_pure]
    exact h
  · rw [if_neg hempty]
    simp only [Arena.place, hempty] at h
    simp only [addNode, linkAll, ends_bind, ends_get, ends_modify, ends_pure]
    exact h

/-- The four ways of a key that is put at: it has a slot, it becomes a query node, or it is
placed below the nodes that were remembered of it, or below those that a walk finds. -/
theorem ends_locate {done : NodeId → Arena K V → Prop}
    (known : ∀ id, arena.slots.find? key = some id → done id arena)
    (query : arena.slots.find? key = none → filter.accepts key = true →
      (descend (reach order filter [key]) arena.nextId (order.successors key)).Ends
        (arena.addNode key (.newQuery key)) (fun _ after => done arena.nextId after) stuck)
    (remembered : arena.slots.find? key = none → filter.accepts key = false →
      ∀ frontier, arena.skipped.find? key = some frontier →
        done ((arena.forget key).place key frontier).1 ((arena.forget key).place key frontier).2)
    (pass : arena.slots.find? key = none → filter.accepts key = false →
      arena.skipped.find? key = none →
      (gather (reach order filter [key]) ∅ (order.successors key)).Ends arena
        (fun frontier after => done (after.place key frontier).1 (after.place key frontier).2)
        stuck) :
    (locate order filter key).Ends arena done stuck := by
  unfold locate
  simp only [ends_bind, ends_get]
  cases hslot : arena.slots.find? key with
  | some id => exact known id hslot
  | none =>
    unfold materialize
    cases hfilter : filter.accepts key with
    | true =>
      simp only [if_true, addNode, ends_bind, ends_get, ends_modify, ends_pure]
      exact query hslot hfilter
    | false =>
      simp only [Bool.false_eq_true, if_false, takeFrontier]
      rw [ends_bind]
      simp only [ends_bind, ends_get]
      cases hskipped : arena.skipped.find? key with
      | some frontier =>
        simp only [ends_bind, ends_modify, ends_pure]
        exact ends_place (remembered hslot hfilter frontier hskipped)
      | none =>
        exact (pass hslot hfilter hskipped).mono (fun _ _ => ends_place) fun _ _ h => h

end Steps

end Build

end Downset
