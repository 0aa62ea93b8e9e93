import PatternAutomata.Proofs.Builder.Expansion
import PatternAutomata.Proofs.Builder.Language
import PatternAutomata.Proofs.Expr.Postorder
import PatternAutomata.Proofs.Graph.Labels

/-!
# What an automaton is made of

The states of an automaton and the labels of its steps can be counted on the expression
that its postorder spells (`Expr.stateCount`, `Expr.stepLabels`).  A builder holds a number
of fragments, a number of states and a multiset of labels (`Builder.Holds`), and each
operator adds to these what its node adds to the counts of the expression.

An operator that repeats a fragment copies all that its start leads to.  That is more than
the fragment if there is anything else to be led to.  The postorder of an expression makes
one fragment, and all states lie behind its start, so an induction on the expression builds
it from nothing, where the copy has every state once (`Builder.Holds.plus`).  The postorder
of a second operand is then put on top of the first one, and what it makes there is what it
makes from nothing (`Builder.Holds.onTop`).

Main statement: a construction comes out well if and only if the tokens spell an expression,
and the sizes of the automaton are those of the expression (`size_of_build`).
-/

namespace PatternAutomata

namespace Expr

/-- The labels of all steps of the automaton of an expression. -/
def stepLabels : Expr → List Token
  | atom t => [t]
  | concat _ lower upper => Token.epsilon :: (lower.stepLabels ++ upper.stepLabels)
  | union _ lower upper => List.replicate 4 Token.epsilon ++ (lower.stepLabels ++ upper.stepLabels)
  | star _ inner => List.replicate 4 Token.epsilon ++ inner.stepLabels
  | plus _ inner => List.replicate 5 Token.epsilon ++ (inner.stepLabels ++ inner.stepLabels)
  | question _ inner => List.replicate 5 Token.epsilon ++ inner.stepLabels

theorem length_stepLabels (e : Expr) : e.stepLabels.length = e.transitionCount := by
  induction e with
  | atom t => rfl
  | concat op lower upper ihl ihu | union op lower upper ihl ihu =>
    simp [stepLabels, transitionCount, ihl, ihu]
  | star op inner ih | question op inner ih => simp [stepLabels, transitionCount, ih]
  | plus op inner ih =>
    simp [stepLabels, transitionCount, ih]
    omega

/-- The steps that are not silent read the operands. -/
theorem filter_stepLabels {e : Expr} (h : e.Kinded) :
    e.stepLabels.filter (!·.isEpsilon) = e.labels := by
  induction e with
  | atom t =>
    have hreads : t.isEpsilon = false := by
      obtain ⟨kind, value, position⟩ := t
      cases kind with
      | literal | escape => rfl
      | _ => cases h
    simp [stepLabels, labels, hreads]
  | concat op lower upper ihl ihu | union op lower upper ihl ihu =>
    obtain ⟨-, hl, hu⟩ := h
    simp [stepLabels, labels, ihl hl, ihu hu]
  | star op inner ih | plus op inner ih | question op inner ih =>
    obtain ⟨-, hi⟩ := h
    simp [stepLabels, labels, ih hi]

end Expr

namespace Builder

variable {b next bl bu : Builder} {t : Token} {rpn : List Token} {labels labels' : List Token}
variable {inner : Fragment} {waiting waiting' states states' : Nat}

/-- What a builder holds: a number of fragments, a number of states and the labels of all
steps, in some order. -/
structure Holds (waiting states : Nat) (labels : List Token) (b : Builder) : Prop where
  /-- The fragments own the states. -/
  sound : b.Sound
  /-- The number of fragments. -/
  length_eq : b.stack.length = waiting
  /-- The number of states. -/
  size_eq : b.graph.size = states
  /-- The labels of the steps. -/
  perm : b.graph.stepLabels.Perm labels

/-! ## Operators -/

/-- What the two newest fragments become. -/
theorem Holds.binary {make : Graph → Fragment → Fragment → Graph × Fragment}
    (h : Holds (waiting + 2) states labels b) (happly : b.apply t = b.binary t make)
    (hmake : ∀ lower ∈ b.stack, ∀ upper ∈ b.stack,
      (make b.graph lower upper).1.size = states' ∧
        (make b.graph lower upper).1.stepLabels.Perm labels') :
    ∃ next, b.apply t = .ok next ∧ Holds (waiting + 1) states' labels' next := by
  obtain ⟨upper, lower, rest, hstack⟩ : ∃ upper lower rest, b.stack = upper :: lower :: rest := by
    match hstack : b.stack, h.length_eq with
    | upper :: lower :: rest, _ => exact ⟨upper, lower, rest, rfl⟩
  have hstep : b.apply t = .ok (push rest (make b.graph lower upper)) := by
    rw [happly, Builder.binary, hstack]
  obtain ⟨hsize, hperm⟩ := hmake lower (by simp [hstack]) upper (by simp [hstack])
  refine ⟨_, hstep, h.sound.of_apply hstep, ?_, hsize, hperm⟩
  have hlength := h.length_eq
  rw [hstack, List.length_cons, Nat.add_right_cancel_iff] at hlength
  exact hlength

/-- What the newest fragment becomes. -/
theorem Holds.unary {make : Graph → Fragment → Graph × Fragment}
    (h : Holds (waiting + 1) states labels b)
    (happly : b.apply t = b.unary t fun g inner => .ok (make g inner))
    (hmake : ∀ inner ∈ b.stack,
      (make b.graph inner).1.size = states' ∧ (make b.graph inner).1.stepLabels.Perm labels') :
    ∃ next, b.apply t = .ok next ∧ Holds (waiting + 1) states' labels' next := by
  obtain ⟨inner, rest, hstack⟩ : ∃ inner rest, b.stack = inner :: rest :=
    List.exists_cons_of_length_eq_add_one h.length_eq
  have hstep : b.apply t = .ok (push rest (make b.graph inner)) := by
    rw [happly, Builder.unary, hstack]
    rfl
  obtain ⟨hsize, hperm⟩ := hmake inner (by simp [hstack])
  refine ⟨_, hstep, h.sound.of_apply hstep, ?_, hsize, hperm⟩
  rw [← h.length_eq, hstack]
  rfl

theorem Holds.concat (h : Holds (waiting + 2) states labels b) (hkind : t.kind = .concat) :
    ∃ next, b.apply t = .ok next ∧
      Holds (waiting + 1) states (Token.epsilon :: labels) next := by
  refine h.binary (by rw [apply, hkind]) fun lower hl upper _ => ⟨?_, ?_⟩
  · rw [Graph.size_concat, h.size_eq]
  · exact (Graph.stepLabels_concat_perm (h.sound.lt_size.1 lower hl).2 upper).trans
      (h.perm.cons _)

theorem Holds.union (h : Holds (waiting + 2) states labels b) (hkind : t.kind = .union) :
    ∃ next, b.apply t = .ok next ∧
      Holds (waiting + 1) (states + 2) (List.replicate 4 Token.epsilon ++ labels) next := by
  refine h.binary (by rw [apply, hkind]) fun lower hl upper hu => ⟨?_, ?_⟩
  · rw [Graph.size_union, h.size_eq]
  · exact (Graph.stepLabels_union_perm (h.sound.lt_size.1 lower hl).2
      (h.sound.lt_size.1 upper hu).2).trans (h.perm.append_left _)

theorem Holds.star (h : Holds (waiting + 1) states labels b) (hkind : t.kind = .star) :
    ∃ next, b.apply t = .ok next ∧
      Holds (waiting + 1) (states + 2) (List.replicate 4 Token.epsilon ++ labels) next := by
  have happly : b.apply t = b.unary t fun g inner => .ok (g.star inner) := by rw [apply, hkind]
  refine h.unary happly fun inner hi => ⟨?_, ?_⟩
  · rw [Graph.size_star, h.size_eq]
  · exact (Graph.stepLabels_star_perm (h.sound.lt_size.1 inner hi).2).trans (h.perm.append_left _)

theorem Holds.question (h : Holds (waiting + 1) states labels b) (hkind : t.kind = .question) :
    ∃ next, b.apply t = .ok next ∧
      Holds (waiting + 1) (states + 4) (List.replicate 5 Token.epsilon ++ labels) next := by
  have happly : b.apply t = b.unary t fun g inner => .ok (g.question inner) := by
    rw [apply, hkind]
  refine h.unary happly fun inner hi => ⟨?_, ?_⟩
  · rw [Graph.size_question, h.size_eq]
  · exact (Graph.stepLabels_question_perm (h.sound.lt_size.1 inner hi).2).trans
      (h.perm.append_left _)

theorem holds_atom (hkind : t.kind.isOperand = true) :
    ∃ next, empty.apply t = .ok next ∧ Holds 1 2 [t] next := by
  have hstep : empty.apply t = .ok (push [] (Graph.empty.atom t)) := by
    obtain ⟨kind, value, position⟩ := t
    cases kind with
    | literal | escape => rfl
    | _ => cases hkind
  exact ⟨_, hstep, sound_empty.of_apply hstep, rfl, Graph.size_atom _ _,
    Graph.stepLabels_atom_perm _ _⟩

/-! ## Copies -/

/-- A copy of all states has everything twice. -/
theorem Holds.duplicate (h : Holds waiting states labels b) (hinner : inner ∈ b.stack)
    (hall : (b.graph.reachable inner.start).Perm (List.range b.graph.size)) :
    Holds (waiting + 1) (states + states) (labels ++ labels) (b.duplicate inner) where
  sound := h.sound.duplicate hinner
  length_eq := congrArg (· + 1) h.length_eq
  size_eq := by
    have hlength : (b.graph.reachable inner.start).length = b.graph.size := by
      rw [hall.length_eq, List.length_range]
    refine (Graph.size_copied _ _).trans ?_
    rw [hlength, h.size_eq]
  perm := (Graph.stepLabels_copied_perm hall).trans (h.perm.append h.perm)

/-- All states lie behind the start of the only fragment. -/
theorem reachable_perm_of_foldlM (h : rpn.foldlM apply empty = .ok b) (hstack : b.stack = [inner]) :
    (b.graph.reachable inner.start).Perm (List.range b.graph.size) := by
  have hbuild : build rpn Flags.empty =
      .ok ⟨"", Flags.empty, inner.start, inner.accept, b.graph⟩ := by
    rw [build_eq, h, ok_bind, finish, hstack]
  exact (wellShaped_of_build hbuild).reachable_perm

/-- At least one pass through the only fragment has everything twice, and the steps of the
other two operators. -/
theorem Holds.plus (h : Holds 1 states labels b) (hrun : rpn.foldlM apply empty = .ok b)
    (hkind : t.kind = .plus) :
    ∃ next, b.apply t = .ok next ∧
      Holds 1 (2 * states + 2) (List.replicate 5 Token.epsilon ++ (labels ++ labels)) next := by
  obtain ⟨inner, hstack⟩ := List.length_eq_one_iff.mp h.length_eq
  have hinner : inner ∈ b.stack := by
    rw [hstack]
    exact List.mem_singleton_self inner
  have hcopy := h.duplicate hinner (reachable_perm_of_foldlM hrun hstack)
  -- The other two operators, at no place in particular.
  have hkind₁ : (Token.bare .star 0).kind = .star := rfl
  have hkind₂ : (Token.bare .concat 0).kind = .concat := rfl
  obtain ⟨starred, hstar, hstarred⟩ := hcopy.star hkind₁
  obtain ⟨next, hconcat, hnext⟩ := hstarred.concat hkind₂
  have hstep := run_plus h.sound hstack hkind hkind₁ hkind₂
  rw [List.foldlM_cons, List.foldlM_cons, hstar, ok_bind, List.foldlM_cons, hconcat, ok_bind,
    List.foldlM_nil] at hstep
  obtain ⟨next', hnext', hrest⟩ := bind_eq_ok_iff.mp hstep
  cases hrest
  rw [Nat.two_mul]
  exact ⟨next, hnext', hnext⟩

/-! ## Postorders -/

/-- What is made on top of a builder adds to what the builder holds. -/
theorem Holds.onTop (hl : Holds waiting states labels bl) (hu : Holds waiting' states' labels' bu)
    (h : Follows bl (bl.graph.size + ·) id bu next) (hsound : next.Sound) :
    Holds (waiting' + waiting) (states + states') (labels ++ labels') next where
  sound := hsound
  length_eq := by rw [h.stack_eq, List.length_append, List.length_map, hl.length_eq, hu.length_eq]
  size_eq := by rw [h.embeds.size_behind, hl.size_eq, hu.size_eq]
  perm := by
    rw [h.embeds.stepLabels_behind]
    exact hl.perm.append hu.perm

/-- Two postorders that make a fragment each make both, one after the other. -/
theorem Holds.append {x y : List Token} (hl : Holds 1 states labels bl)
    (hx : x.foldlM apply empty = .ok bl) (hu : Holds 1 states' labels' bu)
    (hy : y.foldlM apply empty = .ok bu) :
    ∃ next, (x ++ y).foldlM apply empty = .ok next ∧
      Holds 2 (states + states') (labels ++ labels') next := by
  obtain ⟨next, hrun, hfollows⟩ := exists_run_onTop hy bl
  have happend : (x ++ y).foldlM apply empty = .ok next := by
    rw [List.foldlM_append, hx, ok_bind, hrun]
  exact ⟨next, happend, hl.onTop hu hfollows (sound_of_foldlM happend)⟩

/-- A token behind a run. -/
theorem foldlM_append_singleton (h : rpn.foldlM apply empty = .ok b) (t : Token) :
    (rpn ++ [t]).foldlM apply empty = b.apply t := by
  rw [List.foldlM_append, h, ok_bind, List.foldlM_cons]
  exact bind_pure _

/-- The postorder of an expression makes one fragment, with the states and the steps of the
expression. -/
theorem exists_holds {e : Expr} (h : e.Kinded) :
    ∃ b, e.postorder.foldlM apply empty = .ok b ∧ Holds 1 e.stateCount e.stepLabels b := by
  induction e with
  | atom t =>
    obtain ⟨next, hstep, hnext⟩ := holds_atom h
    have hnothing : [].foldlM apply empty = .ok empty := rfl
    exact ⟨next, (foldlM_append_singleton hnothing t).trans hstep, hnext⟩
  | concat op lower upper ihl ihu =>
    obtain ⟨hop, hl, hu⟩ := h
    obtain ⟨bl, hx, hbl⟩ := ihl hl
    obtain ⟨bu, hy, hbu⟩ := ihu hu
    obtain ⟨b, hrun, hb⟩ := hbl.append hx hbu hy
    obtain ⟨next, hstep, hnext⟩ := hb.concat hop
    exact ⟨next, (foldlM_append_singleton hrun op).trans hstep, hnext⟩
  | union op lower upper ihl ihu =>
    obtain ⟨hop, hl, hu⟩ := h
    obtain ⟨bl, hx, hbl⟩ := ihl hl
    obtain ⟨bu, hy, hbu⟩ := ihu hu
    obtain ⟨b, hrun, hb⟩ := hbl.append hx hbu hy
    obtain ⟨next, hstep, hnext⟩ := hb.union hop
    exact ⟨next, (foldlM_append_singleton hrun op).trans hstep, hnext⟩
  | star op inner ih =>
    obtain ⟨hop, hi⟩ := h
    obtain ⟨b, hrun, hb⟩ := ih hi
    obtain ⟨next, hstep, hnext⟩ := hb.star hop
    exact ⟨next, (foldlM_append_singleton hrun op).trans hstep, hnext⟩
  | plus op inner ih =>
    obtain ⟨hop, hi⟩ := h
    obtain ⟨b, hrun, hb⟩ := ih hi
    obtain ⟨next, hstep, hnext⟩ := hb.plus hrun hop
    exact ⟨next, (foldlM_append_singleton hrun op).trans hstep, hnext⟩
  | question op inner ih =>
    obtain ⟨hop, hi⟩ := h
    obtain ⟨b, hrun, hb⟩ := ih hi
    obtain ⟨next, hstep, hnext⟩ := hb.question hop
    exact ⟨next, (foldlM_append_singleton hrun op).trans hstep, hnext⟩

/-- Kinds that postorder has no place for can be left out. -/
theorem foldlM_filter_isStray (b : Builder) (rpn : List Token) :
    (rpn.filter (!·.kind.isStray)).foldlM apply b = rpn.foldlM apply b := by
  induction rpn generalizing b with
  | nil => rfl
  | cons t rpn ih =>
    cases hstray : t.kind.isStray with
    | false =>
      rw [List.filter_cons_of_pos (by simp [hstray]), List.foldlM_cons, List.foldlM_cons]
      exact congrArg _ (funext ih)
    | true =>
      have hstep : b.apply t = .ok b := by
        unfold apply
        cases hkind : t.kind with
        | openParen | closeParen | epsilon | endMark => rfl
        | _ => rw [hkind] at hstray; cases hstray
      rw [List.filter_cons_of_neg (by simp [hstray]), List.foldlM_cons, hstep, ok_bind, ih]

end Builder

/-! ## Automata -/

variable {rpn : List Token} {flags : Flags} {a : Automaton} {e : Expr}

/-- An automaton has the states and the steps of the expression that its postorder spells. -/
theorem holds_of_build (hspelled : Expr.ofRpn? rpn = some e) (h : build rpn flags = .ok a) :
    a.stateCount = e.stateCount ∧ a.graph.stepLabels.Perm e.stepLabels := by
  obtain ⟨hpostorder, hkinded⟩ := Expr.postorder_of_ofRpn? hspelled
  obtain ⟨b, hrun, hb⟩ := Builder.exists_holds hkinded
  rw [hpostorder, Builder.foldlM_filter_isStray] at hrun
  rw [build_eq, hrun, ok_bind] at h
  obtain ⟨f, -, rfl⟩ := Builder.finish_eq_ok h
  exact ⟨hb.size_eq, hb.perm⟩

/-- Tokens make an automaton if and only if they spell an expression, apart from kinds that
are passed over.  The automaton has exactly as many states and transitions as the
expression. -/
theorem size_of_build (rpn : List Token) (flags : Flags) :
    ((∃ a, build rpn flags = .ok a) ↔ ∃ e, Expr.ofRpn? rpn = some e) ∧
      ∀ a e, build rpn flags = .ok a → Expr.ofRpn? rpn = some e →
        a.stateCount = e.stateCount ∧ a.transitionCount = e.transitionCount := by
  constructor
  · constructor
    · rintro ⟨a, h⟩
      obtain ⟨e, -, hspelled, -⟩ := part_of_build h
      exact ⟨e, hspelled⟩
    · rintro ⟨e, hspelled⟩
      exact exists_build_eq_ok hspelled flags
  · intro a e h hspelled
    obtain ⟨hsize, hperm⟩ := holds_of_build hspelled h
    refine ⟨hsize, ?_⟩
    calc a.transitionCount = a.graph.stepLabels.length := a.graph.transitionCount_eq
      _ = e.stepLabels.length := hperm.length_eq
      _ = e.transitionCount := e.length_stepLabels

/-- A pass that is repeated within another one, around tokens that are passed over. -/
def repeatedChoice : List Token :=
  [⟨.literal, "a", 0⟩, ⟨.openParen, "(", 1⟩, ⟨.plus, "+", 2⟩, ⟨.escape, "d", 3⟩, ⟨.endMark, "", 4⟩,
    ⟨.union, "|", 5⟩, ⟨.plus, "+", 6⟩, ⟨.question, "?", 7⟩]

theorem size_of_build_repeatedChoice :
    ∃ a e, build repeatedChoice Flags.empty = .ok a ∧ Expr.ofRpn? repeatedChoice = some e ∧
      a.stateCount = e.stateCount ∧ e.stateCount = 26 ∧
      a.transitionCount = e.transitionCount ∧ e.transitionCount = 34 := by
  obtain ⟨hmade, hsize⟩ := size_of_build repeatedChoice Flags.empty
  obtain ⟨e, hspelled, hstates, htransitions⟩ : ∃ e, Expr.ofRpn? repeatedChoice = some e ∧
    e.stateCount = 26 ∧ e.transitionCount = 34 := ⟨_, rfl, rfl, rfl⟩
  obtain ⟨a, h⟩ := hmade.mpr ⟨e, hspelled⟩
  obtain ⟨hstates', htransitions'⟩ := hsize a e h hspelled
  exact ⟨a, e, h, hspelled, hstates', hstates, htransitions', htransitions⟩

end PatternAutomata
