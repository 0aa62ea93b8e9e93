import PatternAutomata.CommandLine

/-!
# The program

Prints what `CommandLine.run` leaves behind, in colour on a terminal.
-/

open PatternAutomata in
/-- The program. -/
def main (arguments : List String) : IO UInt32 := do
  let out ← IO.getStdout
  let err ← IO.getStderr
  let palette := if ← out.isTty then Text.Palette.ansi else Text.Palette.plain
  let outcome := CommandLine.run palette arguments
  out.putStr outcome.stdout
  out.flush
  err.putStr outcome.stderr
  return outcome.exit
