/-!
# The caret

Offsets into a pattern count bytes, and a terminal counts characters.  The caret
goes under the first character that starts at or after an offset, so an offset
inside a character points at the next one, and an offset past the end points one
column after the last character.
-/

namespace PatternAutomata.Text

/-- The byte offset at which each character starts, the first one at `start`. -/
def byteOffsets : Nat → List Char → List Nat
  | _, [] => []
  | start, c :: cs => start :: byteOffsets (start + c.utf8Size) cs

/-- The column of the first character that starts at or after byte `position`. -/
def caretColumn (text : String) (position : Nat) : Nat :=
  ((byteOffsets 0 text.toList).takeWhile (· < position)).length

/-! ## Tests -/

example : caretColumn "aé&" 3 = 2 := by decide

example : caretColumn "abc" 100 = 3 := by decide

end PatternAutomata.Text
