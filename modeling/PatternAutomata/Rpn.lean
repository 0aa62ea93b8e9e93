import PatternAutomata.Fault
import PatternAutomata.Trace

/-!
# Postorder

`Rpn.ofTokens` puts tokens from reading order into postorder, where every operator
follows its operands.  Parentheses are gone from the result, and the silent
concatenation of neighbours has become a token of its own.

Operands go to the output at once.  Operators wait on a stack until an operator
that binds no tighter, a closing parenthesis or the end takes them off.  An open
parenthesis waits on the stack too, and only its closing partner takes it off.

Both the output and the stack have room for twice as many tokens as there are in
the input.  That is enough, since every token brings at most one silent
concatenation with it.

The tokens from the first `endMark` on are not looked at.
-/

namespace PatternAutomata

/-! ## Faults -/

/-- The classes of faults of a reordering. -/
inductive ParseKind where
  /-- A parenthesis has no partner. -/
  | unmatchedParenthesis
  /-- The output or the stack is full. -/
  | capacityExceeded
  /-- A token has no place in reading order. -/
  | unexpectedToken
deriving DecidableEq

/-- What a reordering reports when it gives up. -/
abbrev ParseFault := Fault ParseKind

/-- Why a reordering gives up. -/
inductive ParseCause where
  /-- A closing parenthesis has no partner. -/
  | unmatchedClose
  /-- An open parenthesis has no partner. -/
  | unmatchedOpen
  /-- There is no room for a token. -/
  | fullBuffer
  /-- The token has no place in reading order. -/
  | strayToken

namespace ParseCause

/-- The class a cause belongs to. -/
def kind : ParseCause → ParseKind
  | unmatchedClose | unmatchedOpen => .unmatchedParenthesis
  | fullBuffer => .capacityExceeded
  | strayToken => .unexpectedToken

/-- The wording of a cause. -/
def message : ParseCause → String
  | unmatchedClose => "unmatched closing parenthesis"
  | unmatchedOpen => "unmatched opening parenthesis"
  | fullBuffer => "token buffer capacity exceeded"
  | strayToken => "unexpected token in infix stream"

/-- The fault of a cause at an offset. -/
def fault (c : ParseCause) (position : Nat) : ParseFault := ⟨c.kind, c.message, position⟩

end ParseCause

namespace Rpn

/-! ## Bounded stacks -/

/-- A stack of tokens with limited room. -/
structure Buffer where
  /-- The tokens, newest first. -/
  tokens : List Token
  /-- How many more tokens fit. -/
  room : Nat
deriving DecidableEq

namespace Buffer

/-- The empty stack with room for so many tokens. -/
def ofRoom (room : Nat) : Buffer := ⟨[], room⟩

/-- Puts a token on top. -/
def push (b : Buffer) (t : Token) : Except ParseFault Buffer :=
  match b.room with
  | 0 => .error (ParseCause.fullBuffer.fault t.position)
  | room + 1 => .ok ⟨t :: b.tokens, room⟩

/-- Puts tokens on top, one after the other. -/
def pushAll (b : Buffer) (ts : List Token) : Except ParseFault Buffer := ts.foldlM push b

/-- The tokens on top that satisfy `p`, topmost first. -/
def top (p : Token → Bool) (b : Buffer) : List Token := b.tokens.takeWhile p

/-- What is left when the tokens on top that satisfy `p` are taken off. -/
def below (p : Token → Bool) (b : Buffer) : Buffer :=
  ⟨b.tokens.dropWhile p, b.room + (b.top p).length⟩

/-- The topmost token and what is left without it. -/
def pop? (b : Buffer) : Option (Token × Buffer) :=
  match b.tokens with
  | [] => none
  | t :: ts => some (t, ⟨ts, b.room + 1⟩)

end Buffer

/-! ## The yard -/

/-- What is known between two tokens. -/
structure Yard where
  /-- The postorder so far, newest first. -/
  output : Buffer
  /-- The operators and open parentheses that wait. -/
  waiting : Buffer
  /-- The kind of the token before. -/
  previous : Option Kind
deriving DecidableEq

namespace Yard

/-- The yard in front of the first token. -/
def ofRoom (room : Nat) : Yard := ⟨Buffer.ofRoom room, Buffer.ofRoom room, none⟩

/-- Whether a token of this kind is the right operand of a silent
concatenation. -/
def juxtaposes (y : Yard) (kind : Kind) : Bool :=
  kind.startsOperand && y.previous.any Kind.endsOperand

/-- Puts an operand into the output. -/
def operand (y : Yard) (t : Token) : Except ParseFault Yard := do
  let output ← y.output.push t
  return { y with output }

/-- Lets an operator wait, after all waiting ones on top that bind at least as
tightly have gone to the output. -/
def operator (y : Yard) (t : Token) : Except ParseFault Yard := do
  let binds (top : Token) : Bool := t.kind.precedence ≤ top.kind.precedence
  let output ← y.output.pushAll (y.waiting.top binds)
  let waiting ← (y.waiting.below binds).push t
  return { y with output, waiting }

/-- Opens a group. -/
def openGroup (y : Yard) (t : Token) : Except ParseFault Yard := do
  let waiting ← y.waiting.push t
  return { y with waiting }

/-- A waiting token other than an open parenthesis. -/
def inGroup (t : Token) : Bool := t.kind != .openParen

/-- Only operators bind, so what binds waits in a group. -/
theorem inGroup_of_precedence {t : Token} (h : 1 ≤ t.kind.precedence) : inGroup t = true := by
  simp only [inGroup, bne_iff_ne]
  intro hkind
  rw [hkind] at h
  exact absurd h (by decide)

/-- Closes the innermost group.  All that waits in it goes to the output. -/
def closeGroup (y : Yard) (position : Nat) : Except ParseFault Yard := do
  let output ← y.output.pushAll (y.waiting.top inGroup)
  match (y.waiting.below inGroup).pop? with
  | some (_, waiting) => return { y with output, waiting }
  | none => throw (ParseCause.unmatchedClose.fault position)

/-- Takes a token, which is no right operand of a silent concatenation. -/
def accept (y : Yard) (t : Token) : Except ParseFault Yard :=
  match t.kind with
  | .literal | .escape => y.operand t
  | .openParen => y.openGroup t
  | .closeParen => y.closeGroup t.position
  | .star | .plus | .question | .union | .concat => y.operator t
  | .epsilon | .endMark => throw (ParseCause.strayToken.fault t.position)

/-- Takes the silent concatenation in front of a token if there is one. -/
def join (y : Yard) (t : Token) : Except ParseFault Yard :=
  if y.juxtaposes t.kind then y.operator (Token.bare .concat t.position) else .ok y

/-- Takes a token, and a silent concatenation in front of it if there is one. -/
def apply (y : Yard) (t : Token) : Except ParseFault Yard := do
  let joined ← y.join t
  let taken ← joined.accept t
  return { taken with previous := some t.kind }

/-- What is told when a token is taken. -/
def events (y : Yard) (t : Token) : List Event :=
  if y.juxtaposes t.kind then [.juxtaposed t.position] else []

/-- Takes a token and tells about it. -/
def consume (y : Yard) (t : Token) : Traced ParseFault Yard := ⟨y.events t, y.apply t⟩

/-- The postorder of a stream that has ended.  All that waits goes to the
output. -/
def finish (y : Yard) : Except ParseFault (List Token) := do
  let output ← y.output.pushAll (y.waiting.top inGroup)
  match (y.waiting.below inGroup).pop? with
  | some (t, _) => throw (ParseCause.unmatchedOpen.fault t.position)
  | none => return output.tokens.reverse

end Yard

/-! ## The reordering -/

/-- The tokens in front of the first `endMark`. -/
def body (ts : List Token) : List Token := ts.takeWhile (·.kind != .endMark)

/-- Puts tokens into postorder and tells about every silent concatenation. -/
def traced (ts : List Token) : Traced ParseFault (List Token) := do
  let y ← (body ts).foldlM Yard.consume (Yard.ofRoom (2 * ts.length))
  Traced.ofExcept y.finish

/-- Puts tokens into postorder. -/
def ofTokens (ts : List Token) : Except ParseFault (List Token) := (traced ts).result

theorem ofTokens_eq (ts : List Token) :
    ofTokens ts = (body ts).foldlM Yard.apply (Yard.ofRoom (2 * ts.length)) >>= Yard.finish := by
  simp only [ofTokens, traced, Traced.result_bind, Traced.result_foldlM, Traced.result_ofExcept]
  rfl

/-! ## Tests -/

example : ofTokens [⟨.literal, "a", 0⟩, ⟨.union, "|", 1⟩, ⟨.literal, "b", 2⟩, ⟨.star, "*", 3⟩] =
    .ok [⟨.literal, "a", 0⟩, ⟨.literal, "b", 2⟩, ⟨.star, "*", 3⟩, ⟨.union, "|", 1⟩] := rfl

example : ofTokens [⟨.literal, "a", 0⟩, ⟨.openParen, "(", 1⟩, ⟨.literal, "b", 2⟩,
      ⟨.closeParen, ")", 3⟩, ⟨.endMark, "", 4⟩] =
    .ok [⟨.literal, "a", 0⟩, ⟨.literal, "b", 2⟩, ⟨.concat, "", 1⟩] := rfl

example : ofTokens [⟨.openParen, "(", 4⟩, ⟨.openParen, "(", 5⟩] =
    .error (ParseCause.unmatchedOpen.fault 5) := rfl

end Rpn

end PatternAutomata
