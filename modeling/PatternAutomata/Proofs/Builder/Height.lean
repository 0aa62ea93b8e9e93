import PatternAutomata.Proofs.Builder.Follows

/-!
# How many fragments wait

Whether a builder takes a token depends on how many fragments wait on its stack, and
not on the graph.  So what comes out of a construction can be counted from the kinds of
the tokens alone.  `Kind.settle` counts one kind, and `height` counts a postorder up to
the first token that finds too few fragments.

A token that a builder takes leaves as many fragments as are counted
(`Builder.settle_of_apply`), and the count fails where fewer wait than the token takes
(`Kind.settle_eq_none_iff`), so where it is refused.  Both together count a run
(`Builder.height_cases`), and the outcome of a construction is read off the height
(`build_of_height`).

The count says nothing about copies.  That a copy never goes wrong comes from the
invariant of the builder: every fragment that waits leads to its accept.
-/

namespace PatternAutomata

/-! ## Counting -/

/-- How many fragments wait behind a token of a kind, if enough of them wait in front of
it. -/
def Kind.settle (waiting : Nat) : Kind → Option Nat
  | literal | escape => some (waiting + 1)
  | star | plus | question => if 1 ≤ waiting then some waiting else none
  | union | concat => if 2 ≤ waiting then some (waiting - 1) else none
  | openParen | closeParen | epsilon | endMark => some waiting

/-- How many fragments wait behind a postorder, or the first token that finds too few. -/
def height (waiting : Nat) : List Token → Except Token Nat
  | [] => .ok waiting
  | t :: rpn =>
    match t.kind.settle waiting with
    | some left => height left rpn
    | none => .error t

theorem height_cons_of_some {waiting left : Nat} {t : Token} (rpn : List Token)
    (h : t.kind.settle waiting = some left) : height waiting (t :: rpn) = height left rpn := by
  rw [height, h]

theorem height_cons_of_none {waiting : Nat} {t : Token} (rpn : List Token)
    (h : t.kind.settle waiting = none) : height waiting (t :: rpn) = .error t := by
  rw [height, h]

/-- Too few fragments wait exactly if there are fewer than the token takes. -/
theorem Kind.settle_eq_none_iff {waiting : Nat} {k : Kind} :
    k.settle waiting = none ↔ waiting < k.arity := by
  cases k <;> simp [settle, arity]

namespace Builder

variable {b b' : Builder} {t : Token}

/-! ## A token -/

theorem length_unary {make : Graph → Fragment → Except BuildFault (Graph × Fragment)}
    (h : b.unary t make = .ok b') :
    1 ≤ b.stack.length ∧ b'.stack.length = b.stack.length := by
  obtain ⟨g, stack⟩ := b
  cases stack with
  | nil => cases h
  | cons inner rest =>
    change (make g inner).map (push rest) = _ at h
    cases hmade : make g inner with
    | error fault =>
      rw [hmade] at h
      cases h
    | ok made =>
      rw [hmade] at h
      cases h
      simp [push]

theorem length_binary {make : Graph → Fragment → Fragment → Graph × Fragment}
    (h : b.binary t make = .ok b') :
    2 ≤ b.stack.length ∧ b'.stack.length = b.stack.length - 1 := by
  obtain ⟨g, stack⟩ := b
  match stack with
  | [] => cases h
  | [_] => cases h
  | upper :: lower :: rest =>
    cases h
    simp [push]

/-- A token that is taken leaves as many fragments as are counted. -/
theorem settle_of_apply (h : b.apply t = .ok b') :
    t.kind.settle b.stack.length = some b'.stack.length := by
  unfold apply at h
  cases hkind : t.kind with
  | literal | escape =>
    rw [hkind] at h
    cases h
    rfl
  | concat | union =>
    rw [hkind] at h
    obtain ⟨henough, hlength⟩ := length_binary h
    rw [Kind.settle, if_pos henough, hlength]
  | star | plus | question =>
    rw [hkind] at h
    obtain ⟨henough, hlength⟩ := length_unary h
    rw [Kind.settle, if_pos henough, hlength]
  | openParen | closeParen | epsilon | endMark =>
    rw [hkind] at h
    cases h
    rfl

/-! ## A postorder -/

/-- A sound builder takes a postorder and holds as many fragments as are counted, or it
stops at the token where the count fails. -/
theorem height_cases (h : b.Sound) (rpn : List Token) :
    (∃ b', rpn.foldlM apply b = .ok b' ∧ height b.stack.length rpn = .ok b'.stack.length) ∨
      ∃ t, rpn.foldlM apply b = .error (BuildCause.missingOperand.fault t.position) ∧
        height b.stack.length rpn = .error t := by
  induction rpn generalizing b with
  | nil => exact .inl ⟨b, rfl, rfl⟩
  | cons t rpn ih =>
    rw [List.foldlM_cons]
    rcases apply_cases h t with ⟨next, hstep, hsound⟩ | hrefused
    · rw [hstep, ok_bind, height_cons_of_some rpn (settle_of_apply hstep)]
      exact ih hsound
    · have hfew := Kind.settle_eq_none_iff.mpr (apply_eq_error_iff.mp hrefused)
      rw [hrefused, height_cons_of_none rpn hfew]
      exact .inr ⟨t, rfl, rfl⟩

/-- A postorder that is counted to its end is taken. -/
theorem foldlM_of_height_ok {rpn : List Token} {n : Nat} (h : height 0 rpn = .ok n) :
    ∃ b, rpn.foldlM apply empty = .ok b ∧ b.stack.length = n := by
  rcases height_cases sound_empty rpn with ⟨b, hrun, hheight⟩ | ⟨t, -, hheight⟩
  · refine ⟨b, hrun, ?_⟩
    exact Except.ok.inj (hheight.symm.trans h)
  · cases hheight.symm.trans h

/-- A postorder whose count fails is refused where it fails. -/
theorem foldlM_of_height_error {rpn : List Token} (h : height 0 rpn = .error t) :
    rpn.foldlM apply empty = .error (BuildCause.missingOperand.fault t.position) := by
  rcases height_cases sound_empty rpn with ⟨b, -, hheight⟩ | ⟨u, hrun, hheight⟩
  · cases hheight.symm.trans h
  · cases hheight.symm.trans h
    exact hrun

/-- Every fragment that waits leads to its accept, so there is a copy of it. -/
theorem Sound.exists_copy (h : b.Sound) {inner : Fragment} (hinner : inner ∈ b.stack) :
    inner.accept ∈ b.graph.reachable inner.start ∧ ∃ made, b.graph.copy inner = some made := by
  have hleads := h.accept_mem_reachable hinner
  exact ⟨hleads, _, Graph.copy_eq hleads⟩

end Builder

/-! ## The outcome -/

variable {rpn : List Token} {flags : Flags}

/-- The builder itself is never at fault. -/
theorem kind_of_build_error {fault : BuildFault} (h : build rpn flags = .error fault) :
    fault.kind = .malformedExpression := by
  rw [build_eq] at h
  rcases Builder.foldlM_cases Builder.sound_empty rpn with ⟨b, hrun, -⟩ | ⟨t, -, hrun⟩
  · rw [hrun, ok_bind, Builder.finish] at h
    split at h
    · cases h
    · cases h
      rfl
    · cases h
      rfl
  · rw [hrun] at h
    cases h
    rfl

/-- What comes out of a construction is read off the height of the postorder.  It stops
at the first token that finds too few fragments.  Otherwise there is an automaton if one
fragment is left, and a fault at the last token if none or several are left.  The builder
itself is never at fault: whatever is copied leads to its accept. -/
theorem build_of_height (rpn : List Token) (flags : Flags) :
    (∀ t, height 0 rpn = .error t →
      build rpn flags = .error (BuildCause.missingOperand.fault t.position)) ∧
    (height 0 rpn = .ok 1 → ∃ a, build rpn flags = .ok a) ∧
    (height 0 rpn = .ok 0 →
      build rpn flags = .error (BuildCause.emptyExpression.fault (lastPosition rpn))) ∧
    (∀ n, height 0 rpn = .ok (n + 2) →
      build rpn flags = .error (BuildCause.missingOperator.fault (lastPosition rpn))) ∧
    (∀ fault, build rpn flags = .error fault →
      fault.kind = .malformedExpression ∧ fault.kind ≠ .internal) ∧
    ∀ before t behind b inner rest, rpn = before ++ t :: behind → t.kind = .plus →
      before.foldlM Builder.apply Builder.empty = .ok b → b.stack = inner :: rest →
        inner.accept ∈ b.graph.reachable inner.start ∧
          ∃ made, b.graph.copy inner = some made := by
  refine ⟨?_, ?_, ?_, ?_, ?_, ?_⟩
  · intro t h
    rw [build_eq, Builder.foldlM_of_height_error h, error_bind]
  · intro h
    obtain ⟨⟨g, stack⟩, hrun, hlength⟩ := Builder.foldlM_of_height_ok h
    obtain ⟨f, rfl⟩ := List.length_eq_one_iff.mp hlength
    exact ⟨_, by rw [build_eq, hrun, ok_bind, Builder.finish]⟩
  · intro h
    obtain ⟨⟨g, stack⟩, hrun, hlength⟩ := Builder.foldlM_of_height_ok h
    obtain rfl := List.length_eq_zero_iff.mp hlength
    rw [build_eq, hrun, ok_bind, Builder.finish]
  · intro n h
    obtain ⟨⟨g, stack⟩, hrun, hlength⟩ := Builder.foldlM_of_height_ok h
    match stack, hlength with
    | _ :: _ :: _, _ => rw [build_eq, hrun, ok_bind, Builder.finish]
  · intro fault h
    have hkind := kind_of_build_error h
    exact ⟨hkind, hkind ▸ nofun⟩
  · intro before t behind b inner rest _ _ hrun hstack
    exact (Builder.sound_of_foldlM hrun).exists_copy (by rw [hstack]; exact List.mem_cons_self)

/-- A choice lacks an operand behind a token that is passed over, two operands are left in
front of another one, nothing is left behind a third one or behind no token at all, and one
operand is repeated. -/
theorem build_of_height_strays :
    build [⟨.literal, "a", 0⟩, ⟨.openParen, "(", 1⟩, ⟨.union, "|", 2⟩, ⟨.star, "*", 3⟩]
        Flags.empty = .error ⟨.malformedExpression, "operator is missing an operand", 2⟩ ∧
    build [⟨.literal, "a", 0⟩, ⟨.escape, "d", 1⟩, ⟨.closeParen, ")", 5⟩] Flags.empty =
      .error ⟨.malformedExpression, "operands are missing an operator", 5⟩ ∧
    build [⟨.openParen, "(", 3⟩] Flags.empty =
      .error ⟨.malformedExpression, "expression is empty", 3⟩ ∧
    build [] Flags.empty = .error ⟨.malformedExpression, "expression is empty", 0⟩ ∧
    ∃ a, build [⟨.literal, "a", 0⟩, ⟨.plus, "+", 1⟩] Flags.empty = .ok a :=
  ⟨(build_of_height _ _).1 ⟨.union, "|", 2⟩ rfl, (build_of_height _ _).2.2.2.1 0 rfl,
    (build_of_height _ _).2.2.1 rfl, (build_of_height _ _).2.2.1 rfl, (build_of_height _ _).2.1 rfl⟩

end PatternAutomata
