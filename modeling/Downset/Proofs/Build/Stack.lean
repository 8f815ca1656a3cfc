import Downset.Proofs.Build.Consistency
import Downset.Proofs.Order.Beyond

/-!
# Walks with one path

A walk may keep a single path that it changes as it goes: it puts a key on the path before it
visits the successors of the key, and takes off what is on top when it is through with them. The
runs of such walks are given by rules, one for each way of a key. A run that answers has restored
the path, and it is a run of the walk that is handed its path anew at every key. From a consistent
arena there is such a run for every safe key, whichever path leads there.
-/

namespace Downset

/-- The path on which a walk stands, latest key first, and the arena that it builds. -/
structure WalkState (K V : Type) where
  path : List K
  arena : Arena K V

variable {K V : Type} [DecidableEq K]

namespace Build

mutual

/-- From one state the walk from a key answers with some nodes and ends in another state. -/
inductive Walks (order : KeyOrder K) (filter : KeyFilter K) :
    K → WalkState K V → OrderedSet NodeId → WalkState K V → Prop
  | known {key : K} {path : List K} {arena : Arena K V} {found : OrderedSet NodeId}
      (new : key ∉ path) (answer : arena.frontier? key = some found) :
      Walks order filter key ⟨path, arena⟩ found ⟨path, arena⟩
  | query {key : K} {path path' : List K} {arena after : Arena K V}
      (new : key ∉ path) (unmet : arena.frontier? key = none)
      (accepted : filter.accepts key = true)
      (links : Links order filter arena.nextId (order.successors key)
        ⟨key :: path, arena.addNode key (.newQuery key)⟩ ⟨path', after⟩) :
      Walks order filter key ⟨path, arena⟩ (.singleton arena.nextId) ⟨path'.tail, after⟩
  | passed {key : K} {path path' : List K} {arena after : Arena K V} {found : OrderedSet NodeId}
      (new : key ∉ path) (unmet : arena.frontier? key = none)
      (rejected : filter.accepts key = false)
      (gathers : Gathers order filter (order.successors key) ⟨key :: path, arena⟩ ∅ found
        ⟨path', after⟩) :
      Walks order filter key ⟨path, arena⟩ found ⟨path'.tail, after.passOver key found⟩

inductive Links (order : KeyOrder K) (filter : KeyFilter K) :
    NodeId → List K → WalkState K V → WalkState K V → Prop
  | done {id : NodeId} {state : WalkState K V} : Links order filter id [] state state
  | link {id : NodeId} {next : K} {rest path : List K} {state after : WalkState K V}
      {arena : Arena K V} {found : OrderedSet NodeId}
      (first : Walks order filter next state found ⟨path, arena⟩)
      (links : Links order filter id rest ⟨path, arena.linkAll id found.toList⟩ after) :
      Links order filter id (next :: rest) state after

inductive Gathers (order : KeyOrder K) (filter : KeyFilter K) :
    List K → WalkState K V → OrderedSet NodeId → OrderedSet NodeId → WalkState K V → Prop
  | all {state : WalkState K V} {found : OrderedSet NodeId} :
      Gathers order filter [] state found found state
  | add {next : K} {rest : List K} {state middle after : WalkState K V}
      {found more all : OrderedSet NodeId} (first : Walks order filter next state more middle)
      (gathers : Gathers order filter rest middle (found ∪ more) all after) :
      Gathers order filter (next :: rest) state found all after

end

variable {α : Type} {order : KeyOrder K} {filter : KeyFilter K} {dropped : K → K → Prop}
  {path path' base : List K} {arena after : Arena K V} {key : K} {found : OrderedSet NodeId}
  {state : WalkState K V}

def Answers (build : Build K V α) (arena : Arena K V) (answer : α) (after : Arena K V) : Prop :=
  build.Ends arena (fun other last => other = answer ∧ last = after) fun _ _ => False

omit [DecidableEq K] in
theorem answers_iff {build : Build K V α} {answer : α} :
    build.Answers arena answer after ↔ build.run arena = (.ok answer, after) := by
  unfold Answers Ends
  rcases build.run arena with ⟨other | other, last⟩
  · exact iff_of_false id fun h => by cases (Prod.mk.inj h).1
  · rw [Prod.mk.injEq, Except.ok.injEq]

/-- A run that answers has restored the path, and the walk that is handed its path answers alike. -/
theorem Walks.answers {state' : WalkState K V} (h : Walks order filter key state found state') :
    state'.path = state.path ∧
      (reach order filter state.path key).Answers state.arena found state'.arena := by
  refine @Walks.rec K V _ order filter
    (fun key state found after _ => after.path = state.path ∧
      (reach order filter state.path key).Answers state.arena found after.arena)
    (fun id keys state after _ => after.path = state.path ∧
      (descend (reach order filter state.path) id keys).Ends state.arena
        (fun _ last => last = after.arena) fun _ _ => False)
    (fun keys state found all after _ => after.path = state.path ∧
      (gather (reach order filter state.path) found keys).Answers state.arena all after.arena)
    ?known ?query ?passed ?done ?link ?all ?add key state found state' h
  case known =>
    intro key path arena found new answer
    refine ⟨rfl, ends_reach (fun hkey => absurd hkey new) (fun _ other hother => ?_)
      (fun _ unmet => ?_) fun _ unmet => ?_⟩
    · exact ⟨Option.some.inj (hother.symm.trans answer), rfl⟩
    · cases answer.symm.trans unmet
    · cases answer.symm.trans unmet
  case query =>
    rintro key path _ arena after new unmet accepted _ ⟨rfl, hends⟩
    refine ⟨rfl, ends_reach (fun hkey => absurd hkey new) (fun _ other hother => ?_)
      (fun _ _ _ => ?_) fun _ _ rejected => ?_⟩
    · cases hother.symm.trans unmet
    · exact hends.mono (fun _ _ hafter => ⟨rfl, hafter⟩) fun _ _ hstuck => hstuck
    · cases accepted.symm.trans rejected
  case passed =>
    rintro key path _ arena after found new unmet rejected _ ⟨rfl, hends⟩
    refine ⟨rfl, ends_reach (fun hkey => absurd hkey new) (fun _ other hother => ?_)
      (fun _ _ accepted => ?_) fun _ _ _ => ?_⟩
    · cases hother.symm.trans unmet
    · cases accepted.symm.trans rejected
    · refine hends.mono ?_ fun _ _ hstuck => hstuck
      rintro other last ⟨rfl, rfl⟩
      exact ⟨rfl, rfl⟩
  case done => exact fun {_ _} => ⟨rfl, rfl⟩
  case link =>
    rintro id next rest _ state after arena found _ _ ⟨rfl, hfirst⟩ ⟨hpath, hlinks⟩
    refine ⟨hpath, ?_⟩
    simp only [descend, linkAll, ends_bind, ends_modify]
    refine hfirst.mono ?_ fun _ _ hstuck => hstuck
    rintro other last ⟨rfl, rfl⟩
    exact hlinks
  case all => exact fun {_ _} => ⟨rfl, rfl, rfl⟩
  case add =>
    rintro next rest state middle after found more all _ _ ⟨hmiddle, hfirst⟩ ⟨hpath, hgathers⟩
    refine ⟨hpath.trans hmiddle, ?_⟩
    unfold Answers at hfirst hgathers ⊢
    simp only [gather, ends_bind]
    refine hfirst.mono ?_ fun _ _ hstuck => hstuck
    rintro other last ⟨rfl, rfl⟩
    exact hmiddle ▸ hgathers

/-- A walk that is handed its path, if it answers, is a run that keeps the path itself. -/
theorem walks_reach (order : KeyOrder K) (filter : KeyFilter K) (path : List K) (key : K)
    (arena : Arena K V) : (reach order filter path key).Ends arena
      (fun found after => Walks order filter key ⟨path, arena⟩ found ⟨path, after⟩)
      (fun _ _ => True) := by
  induction path, key using order.walk_induction generalizing arena with
  | step path key ih =>
    refine ends_reach ?again ?known ?query ?pass
    case again => exact fun _ => trivial
    case known => exact fun hkey found hfound => .known hkey hfound
    case query =>
      intro hkey hunmet haccepts
      refine (ends_descend (fun todo after => ∀ last,
        Links order filter arena.nextId todo ⟨key :: path, after⟩ last →
          Links order filter arena.nextId (order.successors key)
            ⟨key :: path, arena.addNode key (.newQuery key)⟩ last)
        ?_ fun _ hlinks => hlinks).mono ?_ fun _ _ h => h
      · intro next hnext rest before hbefore
        refine (ih hkey next hnext before).mono ?_ fun _ _ h => h
        intro found after hwalks last hlinks
        exact hbefore last (.link hwalks hlinks)
      · intro _ after hafter
        have hwalks := Walks.query hkey hunmet haccepts (hafter _ .done)
        exact hwalks
    case pass =>
      intro hkey hunmet hrejected
      refine (ends_gather (fun todo found after => ∀ all last,
        Gathers order filter todo ⟨key :: path, after⟩ found all last →
          Gathers order filter (order.successors key) ⟨key :: path, arena⟩ ∅ all last)
        ?_ fun _ _ hgathers => hgathers).mono ?_ fun _ _ h => h
      · intro next hnext rest found before hbefore
        refine (ih hkey next hnext before).mono ?_ fun _ _ h => h
        intro more after hwalks all last hgathers
        exact hbefore all last (.add hwalks hgathers)
      · intro found after hafter
        have hwalks := Walks.passed hkey hunmet hrejected (hafter _ _ .all)
        exact hwalks

/-- The runs of a walk with one path are the answers of the walk that is handed its path, with the
path restored. -/
theorem walks_iff : Walks order filter key ⟨path, arena⟩ found state ↔
    state.path = path ∧ (reach order filter path key).run arena = (.ok found, state.arena) := by
  constructor
  · intro h
    exact ⟨h.answers.1, answers_iff.1 h.answers.2⟩
  · rintro ⟨rfl, hrun⟩
    have hwalks := walks_reach order filter state.path key arena
    unfold Ends at hwalks
    rw [hrun] at hwalks
    exact hwalks

theorem run_locate_of_walks (hmet : arena.frontier? key = none)
    (haccepts : filter.accepts key = true)
    (h : Walks order filter key ⟨[], arena⟩ found ⟨[], after⟩) :
    (locate order filter key).run arena = (.ok arena.nextId, after) := by
  have hreach := h.answers.2
  unfold Answers at hreach
  rw [reach_eq, if_neg List.not_mem_nil] at hreach
  simp only [ends_bind, ends_get, hmet, if_pos haccepts, addNode, ends_modify, ends_pure] at hreach
  rw [← answers_iff]
  refine ends_locate (fun id hid => ?_) (fun _ _ => ?_) (fun _ hrejected => ?_) fun _ hrejected => ?_
  · cases hid.symm.trans (Arena.frontier?_eq_none_iff.1 hmet).1
  · exact hreach.mono (fun _ _ hdone => ⟨rfl, hdone.2⟩) fun _ _ hstuck => hstuck
  · cases haccepts.symm.trans hrejected
  · cases haccepts.symm.trans hrejected

section Loops

variable {walk walk' : α → Build K V (OrderedSet NodeId)} {keys : List α}

omit [DecidableEq K] in
theorem descend_congr (h : ∀ next ∈ keys, walk next = walk' next) (id : NodeId) :
    descend walk id keys = descend walk' id keys := by
  induction keys with
  | nil => rfl
  | cons next rest ih =>
    rw [descend, descend, h next List.mem_cons_self,
      ih fun other hother => h other (List.mem_cons_of_mem next hother)]

omit [DecidableEq K] in
theorem gather_congr (h : ∀ next ∈ keys, walk next = walk' next) (found : OrderedSet NodeId) :
    gather walk found keys = gather walk' found keys := by
  induction keys generalizing found with
  | nil => rfl
  | cons next rest ih =>
    have hrest := ih fun other hother => h other (List.mem_cons_of_mem next hother)
    simp only [gather, h next List.mem_cons_self, hrest]

end Loops

/-- At a safe key it makes no difference which path leads there. -/
theorem reach_eq_reach (hsafe : order.Safe key) (h : order.Clear path key)
    (h' : order.Clear path' key) :
    (reach order filter path key : Build K V (OrderedSet NodeId)) =
      reach order filter path' key := by
  induction hsafe using KeyOrder.Safe.induction generalizing path path' with
  | step key hsafe ih =>
    have hnext : ∀ next ∈ order.successors key,
        (reach order filter (key :: path) next : Build K V (OrderedSet NodeId)) =
          reach order filter (key :: path') next :=
      fun next hnext => ih next hnext (h.cons hsafe hnext) (h'.cons hsafe hnext)
    rw [reach_eq, reach_eq, if_neg h.not_mem, if_neg h'.not_mem]
    simp only [descend_congr hnext, gather_congr hnext]

/-- From a consistent arena a walk to a safe key answers with the frontier of the key, whichever
path leads there. -/
theorem exists_walks (h : Arena.Consistent order filter dropped base arena)
    (hbase : order.Leads base key) (hpath : order.Leads path key) (hsafe : order.Safe key) :
    ∃ found after, Walks order filter key ⟨path, arena⟩ found ⟨path, after⟩ ∧
      Arena.IsFrontier order filter base after key found := by
  have hexplores := explores_reach h hbase.above
  rw [reach_eq_reach hsafe (hbase.clear hsafe) (hpath.clear hsafe)] at hexplores
  unfold Explores Ends at hexplores
  rcases hrun : (reach order filter path key).run arena with ⟨twice | found, after⟩
  · rw [hrun] at hexplores
    exact absurd hsafe hexplores.2.2
  · rw [hrun] at hexplores
    exact ⟨found, after, walks_iff.2 ⟨rfl, hrun⟩, hexplores.2.2⟩

end Build

end Downset
