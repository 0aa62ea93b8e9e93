/-!
# Tokens

A token is one unit of a pattern: its kind, the text it carries and the byte
offset it stands at.  Both orders of a pattern are lists of tokens.  In reading
order a pattern may hold parentheses, and the concatenation of neighbours is
silent.  In postorder every operator follows its operands, concatenations are
tokens of their own, and parentheses are gone.

The predicates on kinds say which neighbours form a silent concatenation:
`Kind.endsOperand` on the left and `Kind.startsOperand` on the right.
-/

namespace PatternAutomata

/-- What a token stands for. -/
inductive Kind where
  /-- A single alphanumeric character. -/
  | literal
  /-- A choice between two operands. -/
  | union
  /-- One operand after the other. -/
  | concat
  /-- Any number of passes through the operand. -/
  | star
  /-- At least one pass through the operand. -/
  | plus
  /-- At most one pass through the operand. -/
  | question
  /-- The start of a group. -/
  | openParen
  /-- The end of a group. -/
  | closeParen
  /-- A backslash and the run of alphanumerics behind it. -/
  | escape
  /-- The empty label of a transition. -/
  | epsilon
  /-- The end of the pattern. -/
  | endMark
deriving DecidableEq

namespace Kind

/-- The name of a kind in listings and records. -/
def name : Kind → String
  | literal => "Literal"
  | union => "Union"
  | concat => "Concat"
  | star => "Star"
  | plus => "Plus"
  | question => "Question"
  | openParen => "LParen"
  | closeParen => "RParen"
  | escape => "Escape"
  | epsilon => "Epsilon"
  | endMark => "End"

/-- How tightly an operator binds.  Every kind that is no operator ranks below
all operators, so an open parenthesis is never taken off by one. -/
def precedence : Kind → Nat
  | star | plus | question => 3
  | concat => 2
  | union => 1
  | literal | openParen | closeParen | escape | epsilon | endMark => 0

/-- A kind that is an operand by itself. -/
def isOperand : Kind → Bool
  | literal | escape => true
  | _ => false

/-- A kind that applies to the single operand on its left. -/
def isPostfix : Kind → Bool
  | star | plus | question => true
  | _ => false

/-- A kind that postorder has no place for. -/
def isStray : Kind → Bool
  | openParen | closeParen | epsilon | endMark => true
  | _ => false

/-- A kind that can stand last in the left operand of a silent concatenation. -/
def endsOperand (k : Kind) : Bool := k.isOperand || k.isPostfix || k == closeParen

/-- A kind that can stand first in the right operand of a silent concatenation. -/
def startsOperand (k : Kind) : Bool := k.isOperand || k == openParen

end Kind

/-- One unit of a pattern. -/
structure Token where
  /-- What the token stands for. -/
  kind : Kind
  /-- The text it carries: its own character, the run of an escape without the
  backslash, or nothing. -/
  value : String
  /-- The byte offset it stands at. -/
  position : Nat
deriving DecidableEq

namespace Token

/-- A token that carries a single character. -/
def ofChar (kind : Kind) (c : Char) (position : Nat) : Token :=
  ⟨kind, String.singleton c, position⟩

/-- A token that carries no text. -/
def bare (kind : Kind) (position : Nat) : Token := ⟨kind, "", position⟩

/-- The label of a transition that reads nothing. -/
def epsilon : Token := bare .epsilon 0

/-- Whether the token labels a transition that reads nothing.  The kind alone
decides: an operand with no text is still an operand. -/
def isEpsilon (t : Token) : Bool := t.kind == .epsilon

/-- The text a token is shown by. -/
def text (t : Token) : String :=
  match t.kind with
  | .escape => "\\" ++ t.value
  | .concat => "."
  | .epsilon => "ε"
  | .endMark => ""
  | _ => t.value

/-- The texts of a list of tokens with single spaces between them. -/
def listing (ts : List Token) : String := String.intercalate " " (ts.map text)

@[simp] theorem isEpsilon_epsilon : epsilon.isEpsilon = true := rfl

end Token

/-! ## Tests -/

example : Kind.union.precedence < Kind.concat.precedence ∧
    Kind.concat.precedence < Kind.star.precedence := by decide

example : (Token.mk .escape "d1" 3).text = "\\d1" := by decide

example : (Token.bare .literal 0).isEpsilon = false := rfl

end PatternAutomata
