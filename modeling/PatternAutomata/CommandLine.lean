import PatternAutomata.Compile
import PatternAutomata.Automaton.Dump

/-!
# The command line

The program takes a pattern and shows every stage of its compilation: the kinds
of the tokens, the postorder, and the dump of the automaton.  It stops at the
first fault, which it shows below what it has printed so far, on the error
stream.
-/

namespace PatternAutomata.CommandLine

open Text (Palette)

/-- What a run of the program leaves behind. -/
structure Outcome where
  /-- The exit code. -/
  exit : UInt32
  /-- The text on the output stream. -/
  stdout : String
  /-- The text on the error stream. -/
  stderr : String
deriving DecidableEq

/-- The pattern that is shown if none is given. -/
def defaultPattern : String := "a(a|b)"

/-- The line of the tokens. -/
def tokensLine (tokens : List Token) : String :=
  "tokens: " ++ String.intercalate " " (tokens.map (·.kind.name)) ++ "\n"

/-- The line of the postorder. -/
def rpnLine (rpn : List Token) : String := "rpn:    " ++ Token.listing rpn ++ "\n"

/-- The end of a run at a fault. -/
def failed (printed fault : String) : Outcome := ⟨1, printed, fault ++ "\n"⟩

/-- The run for one pattern. -/
def report (palette : Palette) (pattern : String) : Outcome :=
  match scan pattern with
  | .error f => failed "" ((StageFault.scanning f).text palette pattern)
  | .ok tokens =>
    let printed := tokensLine tokens
    match Rpn.ofTokens tokens with
    | .error f => failed printed ((StageFault.parsing f).render palette pattern)
    | .ok rpn =>
      let printed := printed ++ rpnLine rpn
      match compile pattern ⟨true⟩ with
      | .error e => failed printed (e.render palette)
      | .ok a => ⟨0, printed ++ a.dump, ""⟩

/-- The run for a list of arguments.  Only the first of them counts. -/
def run (palette : Palette) (arguments : List String) : Outcome :=
  report palette (arguments.headD defaultPattern)

end PatternAutomata.CommandLine
