import Mathlib.Computability.Language
import PatternAutomata.Expr.Basic

/-!
# The language of an expression

An expression stands for a set of words, and the letters of a word are texts of
tokens.  An operand without text is a letter too, the empty text, and not the
empty word.

`Expr.languageWith` leaves open what an operand stands for.
-/

namespace PatternAutomata.Expr

/-- The words that an expression stands for. -/
def language : Expr → Language String
  | atom t => {[t.text]}
  | concat _ lower upper => lower.language * upper.language
  | union _ lower upper => lower.language + upper.language
  | star _ inner => KStar.kstar inner.language
  | plus _ inner => inner.language * KStar.kstar inner.language
  | question _ inner => inner.language + 1

/-- The words that an expression stands for if its operands stand for what
`operand` says. -/
def languageWith (operand : Token → Language String) : Expr → Language String
  | atom t => operand t
  | concat _ lower upper => lower.languageWith operand * upper.languageWith operand
  | union _ lower upper => lower.languageWith operand + upper.languageWith operand
  | star _ inner => KStar.kstar (inner.languageWith operand)
  | plus _ inner => inner.languageWith operand * KStar.kstar (inner.languageWith operand)
  | question _ inner => inner.languageWith operand + 1

theorem languageWith_text (e : Expr) : e.languageWith (fun t => {[t.text]}) = e.language := by
  induction e with
  | atom t => rfl
  | concat op lower upper ihl ihu | union op lower upper ihl ihu =>
    rw [languageWith, language, ihl, ihu]
  | star op inner ih | plus op inner ih | question op inner ih => rw [languageWith, language, ih]

end PatternAutomata.Expr
