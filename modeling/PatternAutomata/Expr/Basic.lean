import PatternAutomata.Token

/-!
# Expressions

An expression is the tree that a postorder spells.  Every node keeps the token
it was made from, so that a postorder can be given back token by token.

`ofRpn?` evaluates a postorder on a stack of trees.  `ofRpn?_postorder` says that
it finds the tree again, whatever that tree is, as long as its tokens are of the
kinds of their nodes.  The measures say how large the automaton of an expression
is and which tokens it reads.
-/

namespace PatternAutomata

/-- An expression with the tokens it was made from. -/
inductive Expr where
  /-- A single token is read. -/
  | atom (token : Token)
  /-- One expression after the other. -/
  | concat (op : Token) (lower upper : Expr)
  /-- A choice between two expressions. -/
  | union (op : Token) (lower upper : Expr)
  /-- Any number of passes. -/
  | star (op : Token) (inner : Expr)
  /-- At least one pass. -/
  | plus (op : Token) (inner : Expr)
  /-- At most one pass. -/
  | question (op : Token) (inner : Expr)
deriving DecidableEq

namespace Expr

/-- The tokens of an expression, every operator behind its operands. -/
def postorder : Expr → List Token
  | atom t => [t]
  | concat op lower upper | union op lower upper => lower.postorder ++ upper.postorder ++ [op]
  | star op inner | plus op inner | question op inner => inner.postorder ++ [op]

/-- Every token is of the kind of its node. -/
def Kinded : Expr → Prop
  | atom t => t.kind.isOperand = true
  | concat op lower upper => op.kind = .concat ∧ lower.Kinded ∧ upper.Kinded
  | union op lower upper => op.kind = .union ∧ lower.Kinded ∧ upper.Kinded
  | star op inner => op.kind = .star ∧ inner.Kinded
  | plus op inner => op.kind = .plus ∧ inner.Kinded
  | question op inner => op.kind = .question ∧ inner.Kinded

/-! ## Evaluating a postorder -/

/-- Takes a token on a stack of expressions, newest first.  Kinds that postorder
has no place for are passed over. -/
def apply (stack : List Expr) (t : Token) : Option (List Expr) :=
  match t.kind, stack with
  | .literal, rest | .escape, rest => some (atom t :: rest)
  | .concat, upper :: lower :: rest => some (concat t lower upper :: rest)
  | .union, upper :: lower :: rest => some (union t lower upper :: rest)
  | .star, inner :: rest => some (star t inner :: rest)
  | .plus, inner :: rest => some (plus t inner :: rest)
  | .question, inner :: rest => some (question t inner :: rest)
  | .openParen, rest | .closeParen, rest | .epsilon, rest | .endMark, rest => some rest
  | _, _ => none

/-- The expression that a postorder spells. -/
def ofRpn? (rpn : List Token) : Option Expr :=
  match rpn.foldlM apply [] with
  | some [e] => some e
  | _ => none

theorem apply_atom {t : Token} (h : t.kind.isOperand = true) (stack : List Expr) :
    apply stack t = some (atom t :: stack) := by
  obtain ⟨kind, value, position⟩ := t
  cases kind with
  | literal | escape => rfl
  | _ => cases h

/-- A token that postorder has a place for leaves an expression behind. -/
theorem apply_ne_nil {stack stack' : List Expr} {t : Token} (h : apply stack t = some stack')
    (hstray : t.kind.isStray = false) : stack' ≠ [] := by
  obtain ⟨kind, value, position⟩ := t
  cases kind with
  | literal | escape =>
    cases h
    simp
  | star | plus | question =>
    cases stack with
    | nil => cases h
    | cons inner rest =>
      cases h
      simp
  | union | concat =>
    match stack, h with
    | upper :: lower :: rest, h =>
      cases h
      simp
  | openParen | closeParen | epsilon | endMark => cases hstray

/-- Nothing is left behind by no tokens only. -/
theorem eq_nil_of_foldlM_apply {rpn : List Token} {stack : List Expr}
    (h : rpn.foldlM apply stack = some []) (hstray : ∀ t ∈ rpn, t.kind.isStray = false) :
    rpn = [] := by
  rcases List.eq_nil_or_concat rpn with hnil | ⟨ts, t, hlast⟩
  · exact hnil
  · rw [List.concat_eq_append] at hlast
    subst hlast
    rw [List.foldlM_append, Option.bind_eq_bind, Option.bind_eq_some_iff] at h
    obtain ⟨stack', -, hlast⟩ := h
    rw [List.foldlM_cons, Option.bind_eq_bind, Option.bind_eq_some_iff] at hlast
    obtain ⟨left, hleft, hnil⟩ := hlast
    cases hnil
    exact absurd rfl (apply_ne_nil hleft (hstray t (by simp)))

/-- The postorder of an expression leaves exactly that expression on the stack,
whatever was there before and whatever follows. -/
theorem foldlM_apply_postorder (e : Expr) (h : e.Kinded) (stack : List Expr) (rest : List Token) :
    (e.postorder ++ rest).foldlM apply stack = rest.foldlM apply (e :: stack) := by
  induction e generalizing stack rest with
  | atom t => simp [postorder, apply_atom h]
  | concat op lower upper ihl ihu =>
    obtain ⟨hop, hl, hu⟩ := h
    simp only [postorder, List.append_assoc, ihl hl, ihu hu]
    simp [apply, hop]
  | union op lower upper ihl ihu =>
    obtain ⟨hop, hl, hu⟩ := h
    simp only [postorder, List.append_assoc, ihl hl, ihu hu]
    simp [apply, hop]
  | star op inner ih | plus op inner ih | question op inner ih =>
    obtain ⟨hop, hi⟩ := h
    simp only [postorder, List.append_assoc, ih hi]
    simp [apply, hop]

theorem ofRpn?_postorder {e : Expr} (h : e.Kinded) : ofRpn? e.postorder = some e := by
  have := foldlM_apply_postorder e h [] []
  simp only [List.append_nil] at this
  simp [ofRpn?, this]

/-! ## Measures -/

/-- The number of states of the automaton of an expression. -/
def stateCount : Expr → Nat
  | atom _ => 2
  | concat _ lower upper => lower.stateCount + upper.stateCount
  | union _ lower upper => lower.stateCount + upper.stateCount + 2
  | star _ inner => inner.stateCount + 2
  | plus _ inner => 2 * inner.stateCount + 2
  | question _ inner => inner.stateCount + 4

/-- The number of transitions of the automaton of an expression. -/
def transitionCount : Expr → Nat
  | atom _ => 1
  | concat _ lower upper => lower.transitionCount + upper.transitionCount + 1
  | union _ lower upper => lower.transitionCount + upper.transitionCount + 4
  | star _ inner => inner.transitionCount + 4
  | plus _ inner => 2 * inner.transitionCount + 5
  | question _ inner => inner.transitionCount + 5

/-- The tokens that the automaton of an expression reads, each as often as it
labels a transition. -/
def labels : Expr → List Token
  | atom t => [t]
  | concat _ lower upper | union _ lower upper => lower.labels ++ upper.labels
  | star _ inner | question _ inner => inner.labels
  | plus _ inner => inner.labels ++ inner.labels

/-- The operands of an expression from left to right, each with the number of `plus` nodes
that it stands below.  `above` of them are not part of the expression. -/
def occurrences (above : Nat) : Expr → List (Token × Nat)
  | atom t => [(t, above)]
  | concat _ lower upper | union _ lower upper =>
    lower.occurrences above ++ upper.occurrences above
  | star _ inner | question _ inner => inner.occurrences above
  | plus _ inner => inner.occurrences (above + 1)

end Expr

end PatternAutomata
