import PatternAutomata.Token
import PatternAutomata.Fault

/-!
# Scanning a pattern

`scan` cuts a pattern into tokens, from left to right, and ends the list with one
`endMark`.  It stops at the first fault.

The scanner takes one character at a time and looks at most one ahead.  Two
characters need the look ahead.  A `|` must not stand in front of a `)` or of
the end of the pattern, and a backslash must stand in front of an alphanumeric
character.  What a `|` must not stand behind is read off the newest token.  The
run behind a backslash grows with every alphanumeric character that follows, so
it is as long as it can be.

Only ASCII letters and digits are alphanumeric here.  Every character that the
scanner accepts is ASCII, so a fault is found before any offset can fall inside
a character.

Before the first character, room for all tokens is asked for.  `scanWithin` says
what happens if it is refused.  `scan` and all that is built on it take it as
granted.
-/

namespace PatternAutomata

/-! ## Faults -/

/-- The classes of faults of a scan. -/
inductive ScanKind where
  /-- There is no room for the tokens.  Only `noRoom` belongs to this class. -/
  | memory
  /-- A character stands where it must not stand. -/
  | invalidChar
  /-- A backslash has no run behind it. -/
  | invalidEscape
  /-- The pattern ends too early. -/
  | unexpectedEnd
  /-- Anything else. -/
  | unknown
deriving DecidableEq

/-- What a scan reports when it gives up. -/
abbrev ScanFault := Fault ScanKind

/-- Why a scan gives up. -/
inductive ScanCause where
  /-- The pattern holds no character. -/
  | emptyPattern
  /-- The character has no meaning in a pattern. -/
  | strayChar
  /-- A `)` closes nothing. -/
  | unmatchedClose
  /-- A `|` lacks an operand on one side. -/
  | strayUnion
  /-- A backslash is the last character. -/
  | escapeAtEnd
  /-- A backslash stands in front of a character that is not alphanumeric. -/
  | emptyEscape
  /-- A `(` is never closed. -/
  | unmatchedOpen

namespace ScanCause

/-- The class a cause belongs to. -/
def kind : ScanCause → ScanKind
  | emptyPattern => .unknown
  | strayChar | unmatchedClose | strayUnion => .invalidChar
  | escapeAtEnd | emptyEscape => .invalidEscape
  | unmatchedOpen => .unexpectedEnd

/-- The wording of a cause. -/
def message : ScanCause → String
  | emptyPattern => "invalid input: empty pattern"
  | strayChar => "invalid character in pattern"
  | unmatchedClose => "unmatched closing parenthesis"
  | strayUnion => "invalid alternation operator '|'"
  | escapeAtEnd => "invalid escape sequence: pattern ends with '\\'"
  | emptyEscape => "invalid escape sequence"
  | unmatchedOpen => "unmatched opening parenthesis"

/-- The fault of a cause at an offset. -/
def fault (c : ScanCause) (position : Nat) : ScanFault := ⟨c.kind, c.message, position⟩

end ScanCause

/-! ## The scanner -/

/-- What the scanner knows between two characters. -/
structure Scanner where
  /-- The tokens so far, newest first. -/
  tokens : List Token
  /-- How many groups are open. -/
  opened : Nat
  /-- The byte offset of the next character. -/
  position : Nat
deriving DecidableEq

namespace Scanner

/-- The scanner in front of the first character. -/
def start : Scanner := ⟨[], 0, 0⟩

/-- Takes a character as a token of its own. -/
def push (s : Scanner) (kind : Kind) (c : Char) : Scanner :=
  { s with
    tokens := Token.ofChar kind c s.position :: s.tokens
    position := s.position + c.utf8Size }

/-- Takes a backslash as an escape whose run is still to come. -/
def pushEscape (s : Scanner) : Scanner :=
  { s with
    tokens := Token.bare .escape s.position :: s.tokens
    position := s.position + '\\'.utf8Size }

/-- Takes an alphanumeric character.  Right behind an escape it belongs to the
run of the escape, anywhere else it is a literal. -/
def pushAlphanum (s : Scanner) (c : Char) : Scanner :=
  match s.tokens with
  | ⟨.escape, run, position⟩ :: older =>
    { s with
      tokens := ⟨.escape, run.push c, position⟩ :: older
      position := s.position + c.utf8Size }
  | _ => s.push .literal c

/-- Whether there is nothing on the left that a `|` could choose. -/
def lacksLeft (s : Scanner) : Bool :=
  match s.tokens with
  | [] => true
  | t :: _ => t.kind == .union || t.kind == .openParen

/-- Whether there is nothing on the right that a `|` could choose. -/
def lacksRight : Option Char → Bool
  | none => true
  | some c => c == ')'

/-- Takes the character `c`, which `next` follows. -/
def feed (s : Scanner) (c : Char) (next : Option Char) : Except ScanFault Scanner :=
  if c.isAlphanum then .ok (s.pushAlphanum c)
  else match c with
    | '*' => .ok (s.push .star c)
    | '+' => .ok (s.push .plus c)
    | '?' => .ok (s.push .question c)
    | '(' => .ok { s.push .openParen c with opened := s.opened + 1 }
    | ')' =>
      if s.opened = 0 then .error (ScanCause.unmatchedClose.fault s.position)
      else .ok { s.push .closeParen c with opened := s.opened - 1 }
    | '|' =>
      if s.lacksLeft || lacksRight next then .error (ScanCause.strayUnion.fault s.position)
      else .ok (s.push .union c)
    | '\\' =>
      match next with
      | none => .error (ScanCause.escapeAtEnd.fault s.position)
      | some d =>
        if d.isAlphanum then .ok s.pushEscape
        else .error (ScanCause.emptyEscape.fault s.position)
    | _ => .error (ScanCause.strayChar.fault s.position)

/-- Takes all characters of a list. -/
def feedAll (s : Scanner) : List Char → Except ScanFault Scanner
  | [] => .ok s
  | c :: cs =>
    match s.feed c cs.head? with
    | .ok s' => s'.feedAll cs
    | .error fault => .error fault

/-- The tokens of a pattern that has ended. -/
def finish (s : Scanner) : Except ScanFault (List Token) :=
  if s.opened = 0 then .ok (Token.bare .endMark s.position :: s.tokens).reverse
  else .error (ScanCause.unmatchedOpen.fault s.position)

@[simp] theorem feedAll_nil (s : Scanner) : s.feedAll [] = .ok s := rfl

theorem feedAll_cons (s : Scanner) (c : Char) (cs : List Char) :
    s.feedAll (c :: cs) = s.feed c cs.head? >>= fun s' => s'.feedAll cs := by
  rw [feedAll]
  cases s.feed c cs.head? <;> rfl

end Scanner

/-- The tokens of a pattern, or the leftmost fault. -/
def scan (pattern : String) : Except ScanFault (List Token) :=
  if pattern.toList = [] then .error (ScanCause.emptyPattern.fault 0)
  else Scanner.start.feedAll pattern.toList >>= Scanner.finish

/-- No room was granted for the tokens of a pattern. -/
def noRoom : ScanFault := ⟨.memory, "memory allocation failed", 0⟩

/-- The tokens of a pattern, where room is asked for first: a token for each byte
and one for the end.  `grants` says which requests are granted. -/
def scanWithin (grants : Nat → Bool) (pattern : String) : Except ScanFault (List Token) :=
  if pattern.toList = [] then .error (ScanCause.emptyPattern.fault 0)
  else if grants (pattern.utf8ByteSize + 1) then scan pattern
  else .error noRoom

/-! ## Tests -/

example : scan "a\\d1|b" = .ok
    [⟨.literal, "a", 0⟩, ⟨.escape, "d1", 1⟩, ⟨.union, "|", 4⟩, ⟨.literal, "b", 5⟩,
      ⟨.endMark, "", 6⟩] := rfl

example : scan "" = .error ⟨.unknown, "invalid input: empty pattern", 0⟩ := rfl

example : scan "a(b" = .error ⟨.unexpectedEnd, "unmatched opening parenthesis", 3⟩ := rfl

example : scan "a(|b)" = .error (ScanCause.strayUnion.fault 2) := rfl

example : scan "a\\é" = .error (ScanCause.emptyEscape.fault 1) := rfl

end PatternAutomata
