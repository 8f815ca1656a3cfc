import Downset.Proofs.Build.Outcome

/-!
# What walks keep

A walk changes an arena in three ways: it makes a query node of an accepted key that has no slot, it
links that node, and it records what lies beyond a rejected key that was not met. A property of
arenas that each of these keeps is kept by the whole walk, whether it answers or stops at a cycle.
If the property also survives that a key is forgotten and placed, then it survives that a key is
located.
-/

namespace Downset.Build

variable {K V : Type} {keys : List K} {id : NodeId} {arena : Arena K V} {P : Arena K V → Prop}

section Loops

variable {walk : K → Build K V (OrderedSet NodeId)}
  (hwalk : ∀ next ∈ keys, ∀ before, P before →
    (walk next).Ends before (fun _ after => P after) (fun _ after => P after))

include hwalk

theorem descend_keeps (hlink : ∀ before uppers, P before → P (before.linkAll id uppers))
    (h : P arena) :
    (descend walk id keys).Ends arena (fun _ after => P after) (fun _ after => P after) := by
  refine ends_descend (fun _ after => P after) ?_ h
  intro next hnext _ before hbefore
  exact (hwalk next hnext before hbefore).mono (fun _ after => hlink after _) fun _ _ h => h

theorem gather_keeps {found : OrderedSet NodeId} (h : P arena) :
    (gather walk found keys).Ends arena (fun _ after => P after) (fun _ after => P after) := by
  refine ends_gather (fun _ _ after => P after) ?_ h
  intro next hnext _ _ before hbefore
  exact hwalk next hnext before hbefore

end Loops

variable [DecidableEq K] {order : KeyOrder K} {filter : KeyFilter K} {path : List K} {key : K}

/-- Each way in which a walk changes an arena keeps the property. What is done with a key at the end
of a loop may rest on how the arena was when the key was met. -/
structure KeptByWalks (filter : KeyFilter K) (P : Arena K V → Prop) : Prop where
  addQuery : ∀ {arena key}, arena.slots.find? key = none → filter.accepts key = true → P arena →
    P (arena.addNode key (.newQuery key))
  linkAll : ∀ {start arena key uppers}, start.slots.find? key = none → filter.accepts key = true →
    P start → P arena → P (arena.linkAll start.nextId uppers)
  passOver : ∀ {start arena key found}, start.frontier? key = none → filter.accepts key = false →
    P start → P arena → P (arena.passOver key found)

/-- Each way in which an arena changes when a key is located keeps the property. -/
structure KeptByLocating (filter : KeyFilter K) (P : Arena K V → Prop) : Prop
    extends KeptByWalks filter P where
  forget : ∀ {arena key}, P arena → P (arena.forget key)
  place : ∀ {arena key found}, P arena → P (arena.place key found).2

namespace KeptByWalks

theorem reach (hP : KeptByWalks filter P) (h : P arena) :
    (reach order filter path key).Ends arena (fun _ after => P after) (fun _ after => P after) := by
  induction path, key using order.walk_induction generalizing arena with
  | step path key ih =>
    refine ends_reach ?again ?known ?query ?pass
    case again => exact fun _ => h
    case known => exact fun _ _ _ => h
    case query =>
      intro hkey hfrontier haccepts
      have hslot := (Arena.frontier?_eq_none_iff.1 hfrontier).1
      exact descend_keeps (fun next hnext _ hbefore => ih hkey next hnext hbefore)
        (fun _ _ hbefore => hP.linkAll hslot haccepts h hbefore) (hP.addQuery hslot haccepts h)
    case pass =>
      intro hkey hfrontier hrejected
      exact (gather_keeps (fun next hnext _ hbefore => ih hkey next hnext hbefore) h).mono
        (fun _ _ hafter => hP.passOver hfrontier hrejected h hafter) fun _ _ h => h

theorem descend (hP : KeptByWalks filter P) (hslot : arena.slots.find? key = none)
    (haccepts : filter.accepts key = true) (h : P arena) :
    (descend (Build.reach order filter path) arena.nextId keys).Ends
      (arena.addNode key (.newQuery key)) (fun _ after => P after) (fun _ after => P after) :=
  descend_keeps (fun _ _ _ hbefore => hP.reach hbefore)
    (fun _ _ hbefore => hP.linkAll hslot haccepts h hbefore) (hP.addQuery hslot haccepts h)

theorem gather (hP : KeptByWalks filter P) {found : OrderedSet NodeId} (h : P arena) :
    (gather (Build.reach order filter path) found keys).Ends arena (fun _ after => P after)
      (fun _ after => P after) :=
  gather_keeps (fun _ _ _ hbefore => hP.reach hbefore) h

end KeptByWalks

theorem KeptByLocating.locate (hP : KeptByLocating filter P) (h : P arena) :
    (locate order filter key).Ends arena (fun _ after => P after) (fun _ after => P after) := by
  refine ends_locate ?known ?query ?remembered ?pass
  case known => exact fun _ _ => h
  case query => exact fun hslot haccepts => hP.descend hslot haccepts h
  case remembered => exact fun _ _ _ _ => hP.place (hP.forget h)
  case pass =>
    intro _ _ _
    exact (hP.gather h).mono (fun _ _ hafter => hP.place hafter) fun _ _ h => h

end Downset.Build
