/-!
# Sets of code points

A property of characters is a list of closed ranges of code points, in ascending
order and with a gap between any two of them.  So every set has one list.
-/

namespace PatternAutomata.Text

/-- Closed ranges of code points. -/
abbrev CodePoints := List (Nat × Nat)

namespace CodePoints

/-- Whether a character is in one of the ranges. -/
def has (ranges : CodePoints) (c : Char) : Bool :=
  ranges.any fun range => range.1 ≤ c.toNat && c.toNat ≤ range.2

/-- Every range holds a code point, and a gap follows it. -/
def isApart : CodePoints → Bool
  | [] => true
  | [range] => range.1 ≤ range.2
  | range :: later :: rest =>
    range.1 ≤ range.2 && range.2 + 1 < later.1 && isApart (later :: rest)

/-- The number of code points. -/
def count (ranges : CodePoints) : Nat :=
  ranges.foldr (fun range n => range.2 + 1 - range.1 + n) 0

end CodePoints

end PatternAutomata.Text
