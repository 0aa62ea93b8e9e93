import PatternAutomata.Flags
import PatternAutomata.Graph.Fragment
import Std.Data.ExtTreeSet

/-!
# Automata

An automaton is a graph with a start and an accept.  It remembers the pattern it
was compiled from and the flags it was built with.  Neither has a part in what
it reads.

`Automaton.closure` gives all states that silent steps lead to from a set of
seeds.  A seed that is no state stays in the closure, and leads nowhere.
-/

namespace PatternAutomata

open Std (ExtTreeSet)

/-- A graph that is read from its start to its accept. -/
structure Automaton where
  /-- The pattern the automaton was compiled from, empty if there was none. -/
  pattern : String
  /-- The flags the automaton was built with. -/
  flags : Flags
  /-- Where reading starts. -/
  start : Nat
  /-- Where reading has come to its end. -/
  accept : Nat
  /-- The states. -/
  graph : Graph
deriving DecidableEq

namespace Automaton

/-- The state of an index. -/
def state? (a : Automaton) (id : Nat) : Option State := a.graph.states[id]?

/-- The steps out of a state, none if there is no such state. -/
def transitions (a : Automaton) (id : Nat) : List Transition := a.graph.transitions id

/-- The number of states. -/
def stateCount (a : Automaton) : Nat := a.graph.size

/-- The number of transitions. -/
def transitionCount (a : Automaton) : Nat := a.graph.transitionCount

/-- The texts of the labels that read something. -/
def alphabet (a : Automaton) : ExtTreeSet String :=
  ExtTreeSet.ofList (a.graph.readingLabels.map Token.text)

/-- The states that the start leads to, nearest first. -/
def reachable (a : Automaton) : List Nat := a.graph.reachable a.start

/-- The seeds and all that silent steps lead to from them. -/
def closure (a : Automaton) (seeds : List Nat) : ExtTreeSet Nat :=
  ExtTreeSet.ofList (Search.reach a.graph.silentTargets (a.stateCount + 1) seeds)

end Automaton

end PatternAutomata
