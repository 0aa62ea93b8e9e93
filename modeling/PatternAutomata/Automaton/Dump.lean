import PatternAutomata.Automaton.Basic

/-!
# The dump of an automaton

A dump names the start and the accept in its first line.  Then it lists all
states that the start leads to, nearest first, each with its steps below it.
-/

namespace PatternAutomata.Automaton

/-- The line of a step. -/
def stepLine (t : Transition) : String :=
  if t.isEpsilon then "  ε -> " ++ toString t.target
  else "  '" ++ t.label.text ++ "' -> " ++ toString t.target

/-- The lines of a state. -/
def stateLines (a : Automaton) (id : Nat) : List String :=
  ("state " ++ toString id ++ ":") :: (a.transitions id).map stepLine

/-- The lines of a dump. -/
def dumpLines (a : Automaton) : List String :=
  ("start: " ++ toString a.start ++ ", accept: " ++ toString a.accept)
    :: a.reachable.flatMap a.stateLines

/-- The dump, every line with its end. -/
def dump (a : Automaton) : String := String.join (a.dumpLines.map (· ++ "\n"))

end PatternAutomata.Automaton
