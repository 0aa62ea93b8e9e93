import PatternAutomata.Proofs.Builder.Follows

/-!
# The tokens that a builder takes

A builder takes the tokens of a postorder one after the other.  It takes all of them,
or it stops at an operator that lacks an operand, which is then the last one that it
has taken (`Builder.taken`).  What comes out of a construction tells which of the two
it was (`took_build`).

What a builder tells is told token by token, so the events of a construction are those
of the tokens that were taken (`events_buildTraced`).  This is so for every outcome.
-/

namespace PatternAutomata

namespace Builder

variable {b b' : Builder} {rpn : List Token} {fault : BuildFault}

/-- The tokens that a builder takes, up to the first one that it refuses. -/
def taken (b : Builder) : List Token → List Token
  | [] => []
  | t :: rpn =>
    match b.apply t with
    | .ok next => t :: next.taken rpn
    | .error _ => [t]

/-- A builder that refuses nothing takes everything. -/
theorem taken_of_ok (h : rpn.foldlM apply b = .ok b') : b.taken rpn = rpn := by
  induction rpn generalizing b with
  | nil => rfl
  | cons t rpn ih =>
    obtain ⟨next, hstep, hrest⟩ := bind_eq_ok_iff.mp h
    rw [taken, hstep]
    exact congrArg (t :: ·) (ih hrest)

/-- A builder that refuses a token has taken what comes before it, and this token. -/
theorem taken_of_error (h : rpn.foldlM apply b = .error fault) :
    ∃ before t behind reached, rpn = before ++ t :: behind ∧
      before.foldlM apply b = .ok reached ∧ reached.apply t = .error fault ∧
      b.taken rpn = before ++ [t] := by
  induction rpn generalizing b with
  | nil => cases h
  | cons t rpn ih =>
    rw [List.foldlM_cons] at h
    rw [taken]
    cases hstep : b.apply t with
    | error fault' =>
      rw [hstep, error_bind] at h
      cases h
      exact ⟨[], t, rpn, b, rfl, rfl, hstep, rfl⟩
    | ok next =>
      rw [hstep, ok_bind] at h
      obtain ⟨before, u, behind, reached, rfl, hrun, hrefused, htaken⟩ := ih h
      refine ⟨t :: before, u, behind, reached, rfl, ?_, hrefused, ?_⟩
      · rw [List.foldlM_cons, hstep, ok_bind, hrun]
      · exact congrArg (t :: ·) htaken

/-- The events of a run are those of the tokens that were taken. -/
theorem events_foldlM_consume (flags : Flags) (b : Builder) (rpn : List Token) :
    (rpn.foldlM (consume flags) b).events = (b.taken rpn).flatMap (events flags) := by
  induction rpn generalizing b with
  | nil => rfl
  | cons t rpn ih =>
    have hevents : (b.consume flags t).events = events flags t := rfl
    have hresult : (b.consume flags t).result = b.apply t := rfl
    rw [List.foldlM_cons, Traced.events_bind, hevents, hresult, taken]
    cases b.apply t with
    | error fault => simp
    | ok next => simp [ih]

end Builder

/-- A construction that comes out like this has taken these tokens of a postorder. -/
inductive Took (rpn : List Token) : Except BuildFault Automaton → List Token → Prop where
  /-- All tokens have been taken, and there is one fragment in the end. -/
  | built (a : Automaton) : Took rpn (.ok a) rpn
  /-- All tokens have been taken, and the fault is told at the last one. -/
  | ended {cause : BuildCause} (h : cause = .emptyExpression ∨ cause = .missingOperator) :
      Took rpn (.error (cause.fault (lastPosition rpn))) rpn
  /-- The last token that has been taken lacks an operand behind those before it. -/
  | stopped {before behind : List Token} {t : Token} {reached : Builder}
      (split : rpn = before ++ t :: behind)
      (run : before.foldlM Builder.apply Builder.empty = .ok reached)
      (lacks : reached.stack.length < t.kind.arity) :
      Took rpn (.error (BuildCause.missingOperand.fault t.position)) (before ++ [t])

/-- What comes out of a construction tells which tokens have been taken. -/
theorem took_build (rpn : List Token) (flags : Flags) :
    Took rpn (build rpn flags) (Builder.empty.taken rpn) := by
  rw [build_eq]
  cases hrun : rpn.foldlM Builder.apply Builder.empty with
  | ok b =>
    rw [ok_bind, Builder.taken_of_ok hrun]
    obtain ⟨g, stack⟩ := b
    match stack with
    | [] => exact .ended (.inl rfl)
    | [f] => exact .built _
    | _ :: _ :: _ => exact .ended (.inr rfl)
  | error fault =>
    obtain ⟨before, t, behind, reached, hsplit, hreached, hrefused, htaken⟩ :=
      Builder.taken_of_error hrun
    rw [error_bind, htaken]
    rcases Builder.apply_cases (Builder.sound_of_foldlM hreached) t with ⟨next, hnext, -⟩ | hlacks
    · rw [hrefused] at hnext
      cases hnext
    · rw [hrefused] at hlacks
      cases hlacks
      exact .stopped hsplit hreached (Builder.apply_eq_error_iff.mp hrefused)

/-- The events of a construction are those of the tokens that were taken. -/
theorem events_buildTraced (rpn : List Token) (flags : Flags) :
    (buildTraced rpn flags).events =
      (Builder.empty.taken rpn).flatMap (Builder.events flags) := by
  rw [buildTraced, Traced.events_bind, Builder.events_foldlM_consume]
  cases (rpn.foldlM (Builder.consume flags) Builder.empty).result with
  | error fault => simp
  | ok b => simp

end PatternAutomata
