import Mathlib.Computability.Language
import PatternAutomata.Pattern

/-!
# The language of a pattern

A pattern stands for a set of words.  A letter stands for itself, and what the run
of an escape stands for is left open.

The grammar of patterns can cut a text in more than one way, for `\ab` is an escape
with the run `ab` and also an escape with the run `a` in front of a letter.  Only
the first cut counts.  A run is as long as it can be, so what follows an escape
must not start with an alphanumeric character.
-/

namespace PatternAutomata

/-- The text ends in a backslash and alphanumeric characters. -/
def EndsInEscape (p : List Char) : Prop :=
  ∃ before run, p = before ++ '\\' :: run ∧ ∀ c ∈ run, c.isAlphanum = true

/-- The text starts with an alphanumeric character. -/
def StartsAlphanum (p : List Char) : Prop := ∃ c cs, p = c :: cs ∧ c.isAlphanum = true

/-- The characters form a part of a pattern that stands for a language, if runs
stand for what `escape` says. -/
inductive Denotes (escape : List Char → Language String) :
    Rank → List Char → Language String → Prop where
  | letter {c : Char} (h : c.isAlphanum = true) : Denotes escape .unit [c] {[String.singleton c]}
  | escaped {c : Char} {run : List Char} (h : ∀ d ∈ c :: run, d.isAlphanum = true) :
      Denotes escape .unit ('\\' :: c :: run) (escape (c :: run))
  | group {p : List Char} {L : Language String} (inner : Denotes escape .choice p L) :
      Denotes escape .unit ('(' :: (p ++ [')'])) L
  | ofUnit {p : List Char} {L : Language String} (inner : Denotes escape .unit p L) :
      Denotes escape .factor p L
  | star {p : List Char} {L : Language String} (inner : Denotes escape .factor p L) :
      Denotes escape .factor (p ++ ['*']) (KStar.kstar L)
  | plus {p : List Char} {L : Language String} (inner : Denotes escape .factor p L) :
      Denotes escape .factor (p ++ ['+']) (L * KStar.kstar L)
  | question {p : List Char} {L : Language String} (inner : Denotes escape .factor p L) :
      Denotes escape .factor (p ++ ['?']) (L + 1)
  | ofFactor {p : List Char} {L : Language String} (inner : Denotes escape .factor p L) :
      Denotes escape .sequence p L
  | juxtapose {p q : List Char} {L M : Language String} (lower : Denotes escape .sequence p L)
      (upper : Denotes escape .factor q M) (apart : EndsInEscape p → ¬StartsAlphanum q) :
      Denotes escape .sequence (p ++ q) (L * M)
  | ofSequence {p : List Char} {L : Language String} (inner : Denotes escape .sequence p L) :
      Denotes escape .choice p L
  | union {p q : List Char} {L M : Language String} (lower : Denotes escape .choice p L)
      (upper : Denotes escape .sequence q M) : Denotes escape .choice (p ++ '|' :: q) (L + M)

/-- An escape stands for a single label, the backslash and the whole run. -/
def escapeLabel (run : List Char) : Language String := {[String.ofList ('\\' :: run)]}

end PatternAutomata
