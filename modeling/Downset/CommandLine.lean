import Downset.Scenario.Reading
import Downset.Scenario.Run

/-!
# The command

The command takes the text of one scenario and answers with its report. It fails if what it
is given is no text, describes no scenario, or describes a scenario whose run fails; then
it prints why in the place for errors and nothing else.
-/

namespace Downset.CommandLine

inductive Failure
  | notText
  | notScenario
  | failed (reason : Fault)
  deriving DecidableEq, Repr

/-- A text with four spaces in front of each of its lines. -/
def indented (text : List Char) : List Char :=
  "    ".toList ++ text.flatMap fun c => if c = '\n' then "\n    ".toList else [c]

def Failure.message : Failure → String
  | notText => "Error: stream did not contain valid UTF-8\n"
  | notScenario => "Error: invalid scenario JSON\n"
  | failed reason =>
    "Error: scenario failed\n\nCaused by:\n" ++ String.ofList (indented reason.message.toList) ++
      "\n"

def report (input : ByteArray) : Except Failure Report :=
  match String.fromUTF8? input with
  | none => .error .notText
  | some text =>
    match Scenario.read? text.toList with
    | none => .error .notScenario
    | some scenario => scenario.run.mapError .failed

structure Outcome where
  code : UInt32
  output : String
  errors : String
  deriving DecidableEq, Repr

def outcome (input : ByteArray) : Outcome :=
  match report input with
  | .ok report => ⟨0, report.pretty ++ "\n", ""⟩
  | .error failure => ⟨1, "", failure.message⟩

end Downset.CommandLine
