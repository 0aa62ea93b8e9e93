import PatternAutomata.Proofs.Builder.Ownership
import PatternAutomata.Proofs.Graph.Embeds

/-!
# Two runs in step

A builder follows another one if its graph holds the graph of the other under new
names and labels, and its stack holds the fragments of the other on top of what was
there before (`Builder.Follows`).  Tokens of the same kinds keep it so: a token that
the one takes, the other takes as well (`Follows.apply`), and so does a whole
postorder (`Follows.foldlM`).

A token is refused only if it needs more fragments than there are
(`apply_eq_error_iff`).  A builder may have more below than the one it follows, so
it may take what the other one refuses.  If there was nothing below, both refuse the
same token (`Follows.foldlM_cases`) and have the same outcome (`Follows.finish`).
-/

namespace PatternAutomata

/-- How many fragments a token of this kind takes off the stack. -/
def Kind.arity : Kind → Nat
  | union | concat => 2
  | star | plus | question => 1
  | literal | escape | openParen | closeParen | epsilon | endMark => 0

namespace Builder

variable {b b' next base : Builder} {t : Token} {rpn : List Token}

/-! ## Missing operands -/

theorem unary_eq_error_iff {make : Graph → Fragment → Except BuildFault (Graph × Fragment)}
    (hmake : ∀ g inner, make g inner ≠ .error (BuildCause.missingOperand.fault t.position)) :
    b.unary t make = .error (BuildCause.missingOperand.fault t.position) ↔ b.stack.length < 1 := by
  obtain ⟨g, stack⟩ := b
  cases stack with
  | nil => exact iff_of_true rfl Nat.one_pos
  | cons inner rest =>
    refine iff_of_false (fun h => ?_) (by simp)
    change (make g inner).map (push rest) = _ at h
    cases hmade : make g inner with
    | ok made =>
      rw [hmade] at h
      cases h
    | error fault =>
      rw [hmade] at h
      cases h
      exact hmake g inner hmade

theorem binary_eq_error_iff {make : Graph → Fragment → Fragment → Graph × Fragment} :
    b.binary t make = .error (BuildCause.missingOperand.fault t.position) ↔
      b.stack.length < 2 := by
  obtain ⟨g, stack⟩ := b
  match stack with
  | [] => exact iff_of_true rfl (Nat.zero_lt_two)
  | [_] => exact iff_of_true rfl (Nat.one_lt_two)
  | _ :: _ :: _ => exact iff_of_false nofun (by simp)

/-- The fault of a copy is not that of a missing operand. -/
theorem plus_ne_missingOperand (t : Token) (g : Graph) (inner : Fragment) :
    plus t g inner ≠ .error (BuildCause.missingOperand.fault t.position) := by
  unfold plus
  split
  · exact nofun
  · exact fun h => nomatch h

/-- A token lacks an operand if and only if there are fewer fragments than it needs. -/
theorem apply_eq_error_iff :
    b.apply t = .error (BuildCause.missingOperand.fault t.position) ↔
      b.stack.length < t.kind.arity := by
  unfold apply
  cases t.kind with
  | literal | escape | openParen | closeParen | epsilon | endMark =>
    exact iff_of_false nofun (Nat.not_lt_zero _)
  | concat | union => exact binary_eq_error_iff
  | star | question => exact unary_eq_error_iff fun _ _ => nofun
  | plus => exact unary_eq_error_iff (plus_ne_missingOperand t)

/-- The first token that a builder refuses. -/
def stuck (b : Builder) : List Token → Option Token
  | [] => none
  | t :: rpn =>
    match b.apply t with
    | .ok next => stuck next rpn
    | .error _ => some t

theorem mem_of_stuck {u : Token} (h : b.stuck rpn = some u) : u ∈ rpn := by
  induction rpn generalizing b with
  | nil => cases h
  | cons t rpn ih =>
    unfold stuck at h
    split at h
    · exact List.mem_cons_of_mem t (ih h)
    · cases h
      exact List.mem_cons_self

/-- Every fragment of a sound builder leads to its accept. -/
theorem Sound.accept_mem_reachable (h : b.Sound) {f : Fragment} (hf : f ∈ b.stack) :
    f.accept ∈ b.graph.reachable f.start := by
  obtain ⟨region, howns⟩ := h.exists_owns hf
  exact howns.mem_iff.mpr howns.accept_mem

/-! ## Following -/

/-- A builder holds all that another one holds, under new names and labels and on
top of what was there before. -/
structure Follows (base : Builder) (names : Nat → Nat) (f : Token → Token) (b b' : Builder) :
    Prop where
  /-- The graph of the other one stands inside the graph. -/
  embeds : base.graph.Embeds names f b.graph b'.graph
  /-- The fragments of the other one lie on top. -/
  stack_eq : b'.stack = b.stack.map (.rename names) ++ base.stack

namespace Follows

variable {names : Nat → Nat} {f : Token → Token} {made made' : Graph × Fragment}
variable {rest : List Fragment}

/-- Every builder follows the empty one. -/
theorem onTop (base : Builder) (f : Token → Token) :
    Follows base (base.graph.size + ·) f Builder.empty base where
  embeds := Graph.Embeds.behind base.graph f
  stack_eq := rfl

/-- The empty builder follows itself. -/
theorem nothing (f : Token → Token) :
    Follows Builder.empty id f Builder.empty Builder.empty where
  embeds := Graph.Embeds.nothing f
  stack_eq := rfl

theorem push (h : base.graph.Mirrors names f made made') (rest : List Fragment) :
    Follows base names f (push rest made) (push (rest.map (.rename names) ++ base.stack) made') where
  embeds := h.embeds
  stack_eq := by
    change made'.2 :: _ = made.2.rename names :: _
    rw [h.fragment_eq]
    rfl

/-- Both apply an operator to their newest fragment. -/
theorem unary {make make' : Graph → Fragment → Except BuildFault (Graph × Fragment)} {t' : Token}
    (h : Follows base names f b b') (hstep : b.unary t make = .ok next)
    (hmake : ∀ inner ∈ b.stack, ∀ made, make b.graph inner = .ok made →
      ∃ made', make' b'.graph (inner.rename names) = .ok made' ∧
        base.graph.Mirrors names f made made') :
    ∃ next', b'.unary t' make' = .ok next' ∧ Follows base names f next next' := by
  obtain ⟨g, stack⟩ := b
  obtain ⟨g', stack'⟩ := b'
  obtain rfl : stack' = stack.map (.rename names) ++ base.stack := h.stack_eq
  cases stack with
  | nil => cases hstep
  | cons inner rest =>
    change (make g inner).map (Builder.push rest) = _ at hstep
    cases hmade : make g inner with
    | error fault =>
      rw [hmade] at hstep
      cases hstep
    | ok made =>
      rw [hmade] at hstep
      cases hstep
      obtain ⟨made', hmade', hmirrors⟩ := hmake inner List.mem_cons_self made hmade
      refine ⟨_, ?_, push hmirrors rest⟩
      change (make' g' (inner.rename names)).map _ = _
      rw [hmade']
      rfl

/-- Both apply an operator to their two newest fragments. -/
theorem binary {make : Graph → Fragment → Fragment → Graph × Fragment} {t' : Token}
    (h : Follows base names f b b') (hstep : b.binary t make = .ok next)
    (hmake : ∀ lower upper, base.graph.Mirrors names f (make b.graph lower upper)
      (make b'.graph (lower.rename names) (upper.rename names))) :
    ∃ next', b'.binary t' make = .ok next' ∧ Follows base names f next next' := by
  obtain ⟨g, stack⟩ := b
  obtain ⟨g', stack'⟩ := b'
  obtain rfl : stack' = stack.map (.rename names) ++ base.stack := h.stack_eq
  match stack with
  | [] => cases hstep
  | [_] => cases hstep
  | upper :: lower :: rest =>
    cases hstep
    exact ⟨_, rfl, push (hmake lower upper) rest⟩

/-- What a builder takes, the one that follows it takes as well. -/
theorem apply (h : Follows base names f b b') (hsound : b.Sound) (hkind : (f t).kind = t.kind)
    (hstep : b.apply t = .ok next) :
    ∃ next', b'.apply (f t) = .ok next' ∧ Follows base names f next next' := by
  unfold Builder.apply at hstep ⊢
  rw [hkind]
  cases heq : t.kind with
  | literal | escape =>
    rw [heq] at hstep
    cases hstep
    have hoperand : t.kind.isOperand = true := by rw [heq]; rfl
    have hatom := h.embeds.atom t
    rw [Token.relabel_of_isOperand f hoperand] at hatom
    refine ⟨_, rfl, ?_⟩
    rw [h.stack_eq]
    exact push hatom b.stack
  | concat =>
    rw [heq] at hstep
    exact h.binary hstep h.embeds.concat
  | union =>
    rw [heq] at hstep
    exact h.binary hstep h.embeds.union
  | star =>
    rw [heq] at hstep
    refine h.unary hstep fun inner _ made hmade => ?_
    obtain rfl := Except.ok.inj hmade
    exact ⟨_, rfl, h.embeds.star inner⟩
  | question =>
    rw [heq] at hstep
    refine h.unary hstep fun inner _ made hmade => ?_
    obtain rfl := Except.ok.inj hmade
    exact ⟨_, rfl, h.embeds.question inner⟩
  | plus =>
    rw [heq] at hstep
    refine h.unary hstep fun inner hinner made hmade => ?_
    obtain ⟨first, second, hfirst, hsecond, hmirrors⟩ :=
      h.embeds.plus (hsound.accept_mem_reachable hinner)
    simp only [plus, hfirst] at hmade
    cases hmade
    exact ⟨second, by rw [plus, hsecond], hmirrors⟩
  | openParen | closeParen | epsilon | endMark =>
    rw [heq] at hstep
    cases hstep
    exact ⟨b', rfl, h⟩

/-- A postorder that a builder takes, the one that follows it takes as well. -/
theorem foldlM (h : Follows base names f b b') (hsound : b.Sound)
    (hkind : ∀ t ∈ rpn, (f t).kind = t.kind) (hrun : rpn.foldlM Builder.apply b = .ok next) :
    ∃ next', (rpn.map f).foldlM Builder.apply b' = .ok next' ∧ Follows base names f next next' := by
  induction rpn generalizing b b' with
  | nil =>
    cases hrun
    exact ⟨b', rfl, h⟩
  | cons t rpn ih =>
    rw [List.foldlM_cons] at hrun
    rw [List.forall_mem_cons] at hkind
    obtain ⟨b₁, hstep, hrest⟩ := bind_eq_ok_iff.mp hrun
    obtain ⟨b₁', hstep', hfollows⟩ := h.apply hsound hkind.1 hstep
    obtain ⟨next', hrest', hnext⟩ := ih hfollows (hsound.of_apply hstep) hkind.2 hrest
    refine ⟨next', ?_, hnext⟩
    rw [List.map_cons, List.foldlM_cons, hstep', ok_bind, hrest']

/-! ## Nothing below -/

theorem length_eq (h : Follows base names f b b') (hbase : base.stack = []) :
    b'.stack.length = b.stack.length := by
  rw [h.stack_eq, hbase, List.append_nil, List.length_map]

/-- Both take all tokens, or both refuse the same one. -/
theorem foldlM_cases (h : Follows base names f b b') (hbase : base.stack = []) (hsound : b.Sound)
    (hkind : ∀ t ∈ rpn, (f t).kind = t.kind) :
    (b.stuck rpn = none ∧ ∃ next next', rpn.foldlM Builder.apply b = .ok next ∧
        (rpn.map f).foldlM Builder.apply b' = .ok next' ∧ next.Sound ∧
        Follows base names f next next') ∨
      ∃ t, b.stuck rpn = some t ∧
        rpn.foldlM Builder.apply b = .error (BuildCause.missingOperand.fault t.position) ∧
        (rpn.map f).foldlM Builder.apply b' =
          .error (BuildCause.missingOperand.fault (f t).position) := by
  induction rpn generalizing b b' with
  | nil => exact .inl ⟨rfl, b, b', rfl, rfl, hsound, h⟩
  | cons t rpn ih =>
    rw [List.forall_mem_cons] at hkind
    rw [stuck, List.map_cons, List.foldlM_cons, List.foldlM_cons]
    rcases apply_cases hsound t with ⟨b₁, hstep, hsound₁⟩ | hfault
    · obtain ⟨b₁', hstep', hfollows⟩ := h.apply hsound hkind.1 hstep
      rw [hstep, hstep']
      exact ih hfollows hsound₁ hkind.2
    · have hfault' : b'.apply (f t) =
          .error (BuildCause.missingOperand.fault (f t).position) := by
        rw [apply_eq_error_iff, h.length_eq hbase, hkind.1]
        exact apply_eq_error_iff.mp hfault
      rw [hfault, hfault']
      exact .inr ⟨t, rfl, rfl, rfl⟩

/-- Both end with an automaton between the same two states, or with the same fault. -/
theorem finish (h : Follows base names f b b') (hbase : base.stack = []) (flags : Flags)
    (position position' : Nat) :
    (∃ whole, b.stack = [whole] ∧
        b.finish flags position = .ok ⟨"", flags, whole.start, whole.accept, b.graph⟩ ∧
        b'.finish flags position' =
          .ok ⟨"", flags, names whole.start, names whole.accept, b'.graph⟩) ∨
      ∃ cause : BuildCause, b.finish flags position = .error (cause.fault position) ∧
        b'.finish flags position' = .error (cause.fault position') := by
  obtain ⟨g, stack⟩ := b
  obtain ⟨g', stack'⟩ := b'
  obtain rfl : stack' = stack.map (.rename names) := by
    rw [← List.append_nil (stack.map _), ← hbase]
    exact h.stack_eq
  match stack with
  | [] => exact .inr ⟨.emptyExpression, rfl, rfl⟩
  | [whole] => exact .inl ⟨whole, rfl, rfl, rfl⟩
  | _ :: _ :: _ => exact .inr ⟨.missingOperator, rfl, rfl⟩

end Follows

end Builder

end PatternAutomata
