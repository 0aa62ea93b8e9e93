/-!
# Flags of a build

Flags travel as a word of 32 bits.  One bit is known, which asks the builder to
record every token it takes.  Reading a word either drops the unknown bits
(`Flags.ofWord`) or refuses them (`Flags.ofWord?`).
-/

namespace PatternAutomata

/-- The flags of a build. -/
structure Flags where
  /-- Record every token the builder takes. -/
  debug : Bool
deriving DecidableEq

namespace Flags

/-- No flag is set. -/
def empty : Flags := ⟨false⟩

/-- The bit of the debug flag. -/
def debugBit : UInt32 := 2

/-- The flags of a word, unknown bits dropped. -/
def ofWord (word : UInt32) : Flags := ⟨word &&& debugBit != 0⟩

/-- The word that holds exactly these flags. -/
def toWord (flags : Flags) : UInt32 := if flags.debug then debugBit else 0

/-- The flags of a word that holds no unknown bit. -/
def ofWord? (word : UInt32) : Option Flags :=
  let flags := ofWord word
  if flags.toWord = word then some flags else none

/-- Whether every flag set in `other` is set in `flags`. -/
def contains (flags other : Flags) : Bool := flags.debug || !other.debug

/-- The names of the flags that are set. -/
def text (flags : Flags) : String := if flags.debug then "DEBUG" else "NO_FLAG"

theorem ofWord_toWord (flags : Flags) : ofWord flags.toWord = flags := by
  rcases flags with ⟨_ | _⟩ <;> rfl

/-- A word is read back whole if and only if it is the word of some flags. -/
theorem ofWord?_eq_some_iff {word : UInt32} {flags : Flags} :
    ofWord? word = some flags ↔ word = flags.toWord := by
  constructor
  · intro h
    simp only [ofWord?] at h
    split at h
    · next eq => cases h; exact eq.symm
    · cases h
  · rintro rfl
    simp [ofWord?, ofWord_toWord]

end Flags

/-! ## Tests -/

example : (Flags.ofWord 3).toWord = 2 := rfl

example : Flags.ofWord? 3 = none := rfl

end PatternAutomata
