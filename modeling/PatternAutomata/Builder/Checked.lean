import PatternAutomata.Builder
import PatternAutomata.Graph.Checked

/-!
# A builder that checks its accesses

`Builder.take?` takes a token as `Builder.apply` does, by operations that check every
index that they use.  It gives nothing if an index has no state.  This is not a fault
of the postorder, so it is kept apart from faults.
-/

namespace PatternAutomata.Builder

/-- Applies an operator to the newest fragment. -/
def unary? (b : Builder) (t : Token)
    (make : Graph → Fragment → Option (Except BuildFault (Graph × Fragment))) :
    Option (Except BuildFault Builder) :=
  match b.stack with
  | inner :: rest => (make b.graph inner).map fun made => made.map (push rest)
  | [] => some (.error (BuildCause.missingOperand.fault t.position))

/-- Applies an operator to the two newest fragments. -/
def binary? (b : Builder) (t : Token)
    (make : Graph → Fragment → Fragment → Option (Graph × Fragment)) :
    Option (Except BuildFault Builder) :=
  match b.stack with
  | upper :: lower :: rest => (make b.graph lower upper).map fun made => .ok (push rest made)
  | _ => some (.error (BuildCause.missingOperand.fault t.position))

/-- The fragment of at least one pass. -/
def plus? (rounds : Nat) (t : Token) (g : Graph) (inner : Fragment) :
    Option (Except BuildFault (Graph × Fragment)) :=
  (g.plus? rounds inner).map fun
    | some made => .ok made
    | none => .error (BuildCause.brokenFragment.fault t.position)

/-- Takes a token. -/
def take? (rounds : Nat) (b : Builder) (t : Token) : Option (Except BuildFault Builder) :=
  match t.kind with
  | .literal | .escape => (b.graph.atom? t).map fun made => .ok (push b.stack made)
  | .concat => b.binary? t Graph.concat?
  | .union => b.binary? t Graph.union?
  | .star => b.unary? t fun g inner => (g.star? inner).map .ok
  | .plus => b.unary? t (plus? rounds t)
  | .question => b.unary? t fun g inner => (g.question? inner).map .ok
  | .openParen | .closeParen | .epsilon | .endMark => some (.ok b)

end PatternAutomata.Builder
