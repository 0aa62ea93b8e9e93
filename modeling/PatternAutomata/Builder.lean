import PatternAutomata.Automaton.Basic
import PatternAutomata.Fault
import PatternAutomata.Trace

/-!
# Building an automaton

A builder evaluates a postorder on a stack of fragments, all in one graph.  An
operand adds a fragment, and an operator takes its operands off the stack and
puts the fragment of the result there.  In the end there must be one fragment,
the automaton.

Kinds that postorder has no place for are passed over.

`build_eq` says what comes out without the events.  With the debug flag the
builder tells about every token before it takes it, so the last event before a
fault is about the token to blame.
-/

namespace PatternAutomata

/-! ## Faults -/

/-- The classes of faults of a construction. -/
inductive BuildKind where
  /-- The tokens are no postorder of an expression. -/
  | malformedExpression
  /-- The builder itself went wrong. -/
  | internal
deriving DecidableEq

/-- What a construction reports when it gives up. -/
abbrev BuildFault := Fault BuildKind

/-- Why a construction gives up. -/
inductive BuildCause where
  /-- An operator finds too few fragments. -/
  | missingOperand
  /-- There is no fragment in the end. -/
  | emptyExpression
  /-- There is more than one fragment in the end. -/
  | missingOperator
  /-- A fragment to be copied does not lead to its accept. -/
  | brokenFragment

namespace BuildCause

/-- The class a cause belongs to. -/
def kind : BuildCause → BuildKind
  | missingOperand | emptyExpression | missingOperator => .malformedExpression
  | brokenFragment => .internal

/-- The wording of a cause. -/
def message : BuildCause → String
  | missingOperand => "operator is missing an operand"
  | emptyExpression => "expression is empty"
  | missingOperator => "operands are missing an operator"
  | brokenFragment => "accept state is unreachable from its start state"

/-- The fault of a cause at an offset. -/
def fault (c : BuildCause) (position : Nat) : BuildFault := ⟨c.kind, c.message, position⟩

theorem fault_inj {c d : BuildCause} {position position' : Nat} :
    c.fault position = d.fault position' ↔ c = d ∧ position = position' := by
  constructor
  · intro h
    rw [fault, fault, Fault.mk.injEq] at h
    obtain ⟨-, hmessage, rfl⟩ := h
    refine ⟨?_, rfl⟩
    cases c <;> cases d <;> first | rfl | exact absurd hmessage (by decide)
  · rintro ⟨rfl, rfl⟩
    rfl

end BuildCause

/-! ## The builder -/

/-- What is known between two tokens. -/
structure Builder where
  /-- The states so far. -/
  graph : Graph
  /-- The fragments that wait for an operator, newest first. -/
  stack : List Fragment
deriving DecidableEq

namespace Builder

/-- The builder in front of the first token. -/
def empty : Builder := ⟨Graph.empty, []⟩

/-- The builder with a new fragment on its stack. -/
def push (stack : List Fragment) (made : Graph × Fragment) : Builder :=
  ⟨made.1, made.2 :: stack⟩

/-- Applies an operator to the newest fragment. -/
def unary (b : Builder) (t : Token)
    (make : Graph → Fragment → Except BuildFault (Graph × Fragment)) :
    Except BuildFault Builder :=
  match b.stack with
  | inner :: rest => (make b.graph inner).map (push rest)
  | [] => .error (BuildCause.missingOperand.fault t.position)

/-- Applies an operator to the two newest fragments. -/
def binary (b : Builder) (t : Token) (make : Graph → Fragment → Fragment → Graph × Fragment) :
    Except BuildFault Builder :=
  match b.stack with
  | upper :: lower :: rest => .ok (push rest (make b.graph lower upper))
  | _ => .error (BuildCause.missingOperand.fault t.position)

/-- The fragment of at least one pass. -/
def plus (t : Token) (g : Graph) (inner : Fragment) : Except BuildFault (Graph × Fragment) :=
  match g.plus inner with
  | some made => .ok made
  | none => .error (BuildCause.brokenFragment.fault t.position)

/-- Takes a token. -/
def apply (b : Builder) (t : Token) : Except BuildFault Builder :=
  match t.kind with
  | .literal | .escape => .ok (push b.stack (b.graph.atom t))
  | .concat => b.binary t Graph.concat
  | .union => b.binary t Graph.union
  | .star => b.unary t fun g inner => .ok (g.star inner)
  | .plus => b.unary t (plus t)
  | .question => b.unary t fun g inner => .ok (g.question inner)
  | .openParen | .closeParen | .epsilon | .endMark => .ok b

/-- What is told when a token is taken. -/
def events (flags : Flags) (t : Token) : List Event :=
  (if flags.debug then [.consuming t] else []) ++ if t.kind.isStray then [.skipping t] else []

/-- Takes a token and tells about it. -/
def consume (flags : Flags) (b : Builder) (t : Token) : Traced BuildFault Builder :=
  ⟨events flags t, b.apply t⟩

/-- The automaton of a postorder that has ended.  A fault is told at
`position`. -/
def finish (b : Builder) (flags : Flags) (position : Nat) : Except BuildFault Automaton :=
  match b.stack with
  | [f] => .ok ⟨"", flags, f.start, f.accept, b.graph⟩
  | [] => .error (BuildCause.emptyExpression.fault position)
  | _ :: _ :: _ => .error (BuildCause.missingOperator.fault position)

end Builder

/-! ## The construction -/

/-- The offset of the last token, or 0 if there is none. -/
def lastPosition (rpn : List Token) : Nat := (rpn.getLast?.map Token.position).getD 0

/-- The automaton of a postorder, and what the builder tells. -/
def buildTraced (rpn : List Token) (flags : Flags) : Traced BuildFault Automaton := do
  let b ← rpn.foldlM (Builder.consume flags) Builder.empty
  Traced.ofExcept (b.finish flags (lastPosition rpn))

/-- The automaton of a postorder. -/
def build (rpn : List Token) (flags : Flags) : Except BuildFault Automaton :=
  (buildTraced rpn flags).result

theorem build_eq (rpn : List Token) (flags : Flags) :
    build rpn flags =
      rpn.foldlM Builder.apply Builder.empty >>= fun b => b.finish flags (lastPosition rpn) := by
  simp only [build, buildTraced, Traced.result_bind, Traced.result_foldlM, Traced.result_ofExcept]
  rfl

end PatternAutomata
