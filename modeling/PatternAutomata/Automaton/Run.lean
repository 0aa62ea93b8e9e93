import PatternAutomata.Automaton.Basic

/-!
# Reading a word

An automaton reads a word of labels by keeping the set of all states that it may
be in.  At first these are the states that silent steps lead to from the start.
A label leads to the targets of all steps of that text, and silent steps lead on
from there.  The word is accepted if the accept is in the last set.

Only the text of a step counts.  A step that reads a token without text reads
the empty label, and is no silent step.
-/

namespace PatternAutomata.Automaton

open Std (ExtTreeSet)

/-- Whether a step reads this label. -/
def reads (label : String) (t : Transition) : Bool := !t.isEpsilon && t.label.text == label

/-- Where the steps that read `label` lead to from a set of states. -/
def moves (a : Automaton) (current : ExtTreeSet Nat) (label : String) : List Nat :=
  current.toList.flatMap fun id => ((a.transitions id).filter (reads label)).map Transition.target

/-- Where reading starts. -/
def initial (a : Automaton) : ExtTreeSet Nat := a.closure [a.start]

/-- The set of states after one more label. -/
def feed (a : Automaton) (current : ExtTreeSet Nat) (label : String) : ExtTreeSet Nat :=
  a.closure (a.moves current label)

/-- The set of states after a word of labels. -/
def run (a : Automaton) (word : List String) : ExtTreeSet Nat := word.foldl a.feed a.initial

/-- Whether a set of states holds the accept. -/
def accepting (a : Automaton) (current : ExtTreeSet Nat) : Bool := current.contains a.accept

/-- Whether a word of labels is accepted. -/
def accepts (a : Automaton) (word : List String) : Bool := a.accepting (a.run word)

/-- A text as a word, each character a label of its own. -/
def word (text : String) : List String := text.toList.map String.singleton

/-- Where the steps of this text lead to from the states of the set. -/
theorem mem_moves {a : Automaton} {current : ExtTreeSet Nat} {label : String} {target : Nat} :
    target ∈ a.moves current label ↔
      ∃ id ∈ current, ∃ t ∈ a.transitions id, reads label t = true ∧ t.target = target := by
  simp [moves, and_assoc]

end PatternAutomata.Automaton
