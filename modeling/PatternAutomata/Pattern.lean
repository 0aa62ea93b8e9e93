import PatternAutomata.Expr.Derivation

/-!
# The grammar of patterns

A pattern is a text by the same ranks of rules that hold for tokens.  A unit is
an alphanumeric character, a backslash with at least one alphanumeric character
behind it, or a choice between parentheses.  There is no sign for concatenation.
-/

namespace PatternAutomata

/-- The characters form a part of a pattern of a rank. -/
inductive Pattern : Rank → List Char → Prop where
  | letter {c : Char} (h : c.isAlphanum = true) : Pattern .unit [c]
  | escape {c : Char} {run : List Char} (h : ∀ d ∈ c :: run, d.isAlphanum = true) :
      Pattern .unit ('\\' :: c :: run)
  | group {p : List Char} (inner : Pattern .choice p) : Pattern .unit ('(' :: (p ++ [')']))
  | ofUnit {p : List Char} (inner : Pattern .unit p) : Pattern .factor p
  | star {p : List Char} (inner : Pattern .factor p) : Pattern .factor (p ++ ['*'])
  | plus {p : List Char} (inner : Pattern .factor p) : Pattern .factor (p ++ ['+'])
  | question {p : List Char} (inner : Pattern .factor p) : Pattern .factor (p ++ ['?'])
  | ofFactor {p : List Char} (inner : Pattern .factor p) : Pattern .sequence p
  | juxtapose {p q : List Char} (lower : Pattern .sequence p) (upper : Pattern .factor q) :
      Pattern .sequence (p ++ q)
  | ofSequence {p : List Char} (inner : Pattern .sequence p) : Pattern .choice p
  | union {p q : List Char} (lower : Pattern .choice p) (upper : Pattern .sequence q) :
      Pattern .choice (p ++ '|' :: q)

namespace Pattern

theorem ne_nil {rank : Rank} {p : List Char} (h : Pattern rank p) : p ≠ [] := by
  induction h with
  | ofUnit _ ih | ofFactor _ ih | ofSequence _ ih => exact ih
  | juxtapose _ _ ih => simp [ih]
  | _ => simp

end Pattern

end PatternAutomata
