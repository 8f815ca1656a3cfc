import Downset.CommandLine

/-!
# The program

Reads standard input to its end, and prints what the command makes of it.
-/

/-- All that a stream still holds, put behind what was read of it before. -/
partial def Downset.readAll (stream : IO.FS.Stream) (read : ByteArray) : IO ByteArray := do
  let more ← stream.read 65536
  if more.isEmpty then return read else Downset.readAll stream (read ++ more)

def main : IO UInt32 := do
  let input ← Downset.readAll (← IO.getStdin) .empty
  let outcome := Downset.CommandLine.outcome input
  (← IO.getStdout).putStr outcome.output
  (← IO.getStderr).putStr outcome.errors
  return outcome.code
