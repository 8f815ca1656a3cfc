/-!
# Phases and faults

An index is either written or read. Puts and gets come in batches, so what was computed
for reading is dropped once, on the way back to writing, and not at every put. A put or a
get can fail, in one of three ways with a message for each.
-/

namespace Downset

/-- Whether values may be put or got. -/
inductive Phase
  | writable
  | readable
  deriving DecidableEq, Repr

namespace Phase

def initial : Phase := writable

instance : Inhabited Phase := ⟨initial⟩

def name : Phase → String
  | writable => "writable"
  | readable => "readable"

def title : Phase → String
  | writable => "Writable"
  | readable => "Readable"

end Phase

inductive Request
  | put
  | get
  deriving DecidableEq, Repr

def Request.name : Request → String
  | put => "put"
  | get => "get"

inductive Fault
  | nullKey (request : Request)
  /-- The order leads from a key back to itself. The texts name the order and that key. -/
  | cycleDetected (order key : String)
  /-- The index was not in the phase that the request needs. -/
  | phaseViolation (expected actual : Phase)
  deriving DecidableEq, Repr

def Fault.message : Fault → String
  | nullKey request => "key passed to `" ++ request.name ++ "` must not be null"
  | cycleDetected order key => "cycle in graph generated by " ++ order ++ " (through key " ++ key ++ ")"
  | phaseViolation expected actual =>
    "lattice is " ++ actual.name ++ ", operation requires it to be " ++ expected.name

def Phase.require (actual expected : Phase) : Except Fault Unit :=
  if actual = expected then .ok () else .error (.phaseViolation expected actual)

end Downset
