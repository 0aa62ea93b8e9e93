import PatternAutomata.Expr.Derivation
import PatternAutomata.Proofs.Rpn.Room

/-!
# Derivations in postorder

A derivation is read by a yard without a fault, and what the yard gives is the
postorder of the derived expression.

`Reads rank ts e` says how a yard gets through the tokens of an expression.  The
postorder of the expression is cut in two.  The first part has gone to the
output, and the second part waits on top of what waited before.  What waits binds
at least as tightly as the rank allows, so a sequence leaves no `|` behind and a
factor only postfix operators.  In front of the expression nothing may end an
operand, and the topmost waiting token must bind less tightly than the rank.

There is one lemma for each rule of the grammar, and `reads_of_derives` puts them
together.  Since a postorder spells its expression, a stream of tokens derives one
expression at most.
-/

namespace PatternAutomata

/-- How tightly all operators bind that can wait when an expression of a rank has
been read. -/
def Rank.floor : Rank → Nat
  | choice => 1
  | sequence => 2
  | factor => 3
  | unit => 4

namespace Derives

variable {rank : Rank} {ts : List Token} {e : Expr}

/-- A token brings at most itself and one concatenation into the postorder, and
the first token brings no concatenation. -/
theorem length_postorder_lt (h : Derives rank ts e) : e.postorder.length < 2 * ts.length := by
  induction h with
  | operand => simp [Expr.postorder]
  | group _ _ _ ih =>
    simp only [List.length_cons, List.length_append, List.length_nil]
    omega
  | ofUnit _ ih | ofFactor _ ih | ofSequence _ ih => exact ih
  | star _ _ ih | plus _ _ ih | question _ _ ih =>
    simp only [Expr.postorder, List.length_append, List.length_cons, List.length_nil]
    omega
  | juxtapose _ _ ihl ihu | concat _ _ _ ihl ihu | union _ _ _ ihl ihu =>
    simp only [Expr.postorder, List.length_append, List.length_cons, List.length_nil] at ihu ⊢
    omega

end Derives

namespace Rpn

/-! ## Single steps -/

/-- The topmost waiting token binds less tightly than `n`. -/
def Loose (n : Nat) (waiting : List Token) : Prop :=
  ∀ t ∈ waiting.head?, t.kind.precedence < n

theorem Loose.mono {m n : Nat} {waiting : List Token} (h : Loose m waiting) (hmn : m ≤ n) :
    Loose n waiting := by
  intro t ht
  exact Nat.lt_of_lt_of_le (h t ht) hmn

namespace Yard

variable {capacity : Nat} {output waiting : List Token} {previous : Option Kind}

/-- An operator moves exactly the tokens to the output that bind at least as
tightly, if they lie on top of one that binds less tightly. -/
theorem operator_holding_append {pending : List Token} (previous : Option Kind) (t : Token)
    (hpending : ∀ s ∈ pending, t.kind.precedence ≤ s.kind.precedence)
    (hwaiting : Loose t.kind.precedence waiting)
    (h : output.length + (pending ++ waiting).length < capacity) :
    (holding capacity output (pending ++ waiting) previous).operator t =
      .ok (holding capacity (pending.reverse ++ output) (t :: waiting) previous) := by
  have hbinds : ∀ s ∈ pending, binds t s = true := by
    intro s hs
    simpa [binds] using hpending s hs
  have hstop : waiting.takeWhile (binds t) = [] ∧ waiting.dropWhile (binds t) = waiting := by
    cases waiting with
    | nil => exact ⟨rfl, rfl⟩
    | cons s rest =>
      have hs : ¬binds t s = true := by
        have := hwaiting s rfl
        simp only [binds, decide_eq_true_eq]
        omega
      exact ⟨List.takeWhile_cons_of_neg hs, List.dropWhile_cons_of_neg hs⟩
  rw [operator_holding t h, List.takeWhile_append_of_pos hbinds,
    List.dropWhile_append_of_pos hbinds, hstop.1, hstop.2, List.append_nil]

/-- A token that is no right operand of a silent concatenation is only taken. -/
theorem apply_of_not_juxtaposes {y y' : Yard} {t : Token} (h : y.juxtaposes t.kind = false)
    (ht : y.accept t = .ok y') : y.apply t = .ok { y' with previous := some t.kind } := by
  rw [apply, join, h, if_neg Bool.false_ne_true, ok_bind, ht]
  rfl

/-- An operator is taken as such, whatever stands in front of it. -/
theorem apply_operator {y y' : Yard} {t : Token}
    (hkind : t.kind.isPostfix = true ∨ t.kind = .union ∨ t.kind = .concat)
    (h : y.operator t = .ok y') : y.apply t = .ok { y' with previous := some t.kind } := by
  obtain ⟨kind, value, position⟩ := t
  cases kind with
  | star | plus | question | union | concat =>
    exact apply_of_not_juxtaposes (juxtaposes_eq_false_of_kind rfl y) h
  | _ => simp [Kind.isPostfix] at hkind

/-- A silent concatenation is taken like an operator that stands in front of the
token, and after it the token is no right operand any more. -/
theorem apply_of_juxtaposes {t : Token} {output' waiting' : List Token}
    (h : (holding capacity output waiting previous).juxtaposes t.kind = true)
    (hop : (holding capacity output waiting previous).operator (Token.bare .concat t.position) =
      .ok (holding capacity output' waiting' previous)) :
    (holding capacity output waiting previous).apply t =
      (holding capacity output' waiting' none).apply t := by
  have hstarts : t.kind.startsOperand = true := by
    rw [juxtaposes, Bool.and_eq_true] at h
    exact h.1
  have hnone : (holding capacity output' waiting' none).juxtaposes t.kind = false :=
    juxtaposes_eq_false_of_previous rfl t.kind
  rw [apply, apply, join, join, h, hnone, if_pos rfl, hop, ok_bind, if_neg Bool.false_ne_true,
    ok_bind]
  obtain ⟨kind, value, position⟩ := t
  cases kind with
  | literal | escape =>
    simp only [accept, operand, holding]
    cases Buffer.push _ _ <;> rfl
  | openParen =>
    simp only [accept, openGroup, holding]
    cases Buffer.push _ _ <;> rfl
  | _ => cases hstarts

end Yard

/-! ## Reading an expression -/

/-- What has come out of a run is a yard that has read an expression with this
postorder, on top of what it held before.  The operators of the expression that
still wait bind at least as tightly as `floor`. -/
def HasRead (floor : Nat) (spelled : List Token) (capacity : Nat) (output waiting : List Token)
    (outcome : Except ParseFault Yard) : Prop :=
  ∃ done pending last,
    done ++ pending = spelled ∧ (∀ t ∈ pending, floor ≤ t.kind.precedence) ∧
    Kind.endsOperand last = true ∧
    outcome = .ok (Yard.holding capacity (done.reverse ++ output) (pending ++ waiting) (some last))

/-- A yard reads `ts` as an expression with this postorder, whatever it holds, if
no operand ends in front of the expression and the topmost waiting token binds
less tightly than `floor`. -/
def Reads (floor : Nat) (ts spelled : List Token) : Prop :=
  ∀ ⦃capacity : Nat⦄ ⦃output waiting : List Token⦄ ⦃previous : Option Kind⦄,
    previous.any Kind.endsOperand = false → Loose floor waiting →
    output.length + waiting.length + 2 * ts.length ≤ capacity →
    HasRead floor spelled capacity output waiting
      (ts.foldlM Yard.apply (Yard.holding capacity output waiting previous))

namespace Reads

open Yard (holding operand_holding openGroup_holding closeGroup_holding operator_holding_append
  apply_of_not_juxtaposes apply_operator apply_of_juxtaposes juxtaposes_eq_false_of_previous
  juxtaposes_eq_false_of_kind)

variable {m n : Nat} {ts us spelled lower upper : List Token} {t : Token}

theorem mono (h : Reads n ts spelled) (hmn : m ≤ n) : Reads m ts spelled := by
  intro capacity output waiting previous hprevious hwaiting hroom
  obtain ⟨done, pending, last, hspelled, hpending, hlast, hrun⟩ :=
    h hprevious (hwaiting.mono hmn) hroom
  exact ⟨done, pending, last, hspelled, fun s hs => Nat.le_trans hmn (hpending s hs), hlast, hrun⟩

theorem operand (kind : t.kind.isOperand = true) : Reads n [t] [t] := by
  intro capacity output waiting previous hprevious _ hroom
  have hroom' : output.length < capacity := by
    simp only [List.length_singleton] at hroom
    omega
  have haccept : (holding capacity output waiting previous).accept t =
      .ok (holding capacity (t :: output) waiting previous) := by
    rw [← operand_holding t hroom']
    obtain ⟨k, value, position⟩ := t
    cases k with
    | literal | escape => rfl
    | _ => cases kind
  have hstep := apply_of_not_juxtaposes (juxtaposes_eq_false_of_previous hprevious t.kind) haccept
  refine ⟨[t], [], t.kind, rfl, by simp, by simp [Kind.endsOperand, kind], ?_⟩
  rw [List.foldlM_cons, hstep]
  rfl

/-- Nothing that is read inside a group stays behind in it. -/
theorem group {opening closing : Token} (hopening : opening.kind = .openParen)
    (inner : Reads 1 ts spelled) (hclosing : closing.kind = .closeParen)
    (hlength : spelled.length < 2 * ts.length) :
    Reads n (opening :: (ts ++ [closing])) spelled := by
  intro capacity output waiting previous hprevious _ hroom
  simp only [List.length_cons, List.length_append, List.length_nil] at hroom
  have haccept : (holding capacity output waiting previous).accept opening =
      .ok (holding capacity output (opening :: waiting) previous) := by
    rw [← openGroup_holding opening (by omega), Yard.accept, hopening]
  have hopen := apply_of_not_juxtaposes
    (juxtaposes_eq_false_of_previous hprevious opening.kind) haccept
  have hloose : Loose 1 (opening :: waiting) := by
    intro s hs
    cases hs
    rw [hopening]
    decide
  obtain ⟨done, pending, last, hspelled, hpending, -, hrun⟩ := inner
    (show (some opening.kind).any Kind.endsOperand = false by rw [hopening]; rfl) hloose
    (show output.length + (opening :: waiting).length + 2 * ts.length ≤ capacity by
      rw [List.length_cons]; omega)
  have hlengths := congrArg List.length hspelled
  rw [List.length_append] at hlengths
  have hinner : ∀ s ∈ pending, Yard.inGroup s = true := by
    intro s hs
    exact Yard.inGroup_of_precedence (hpending s hs)
  have hclose : (holding capacity (done.reverse ++ output) (pending ++ opening :: waiting)
      (some last)).apply closing =
      .ok (holding capacity (spelled.reverse ++ output) waiting (some closing.kind)) := by
    have hgroup := closeGroup_holding (some last) closing.position hinner
      (show Yard.inGroup opening = false by simp [Yard.inGroup, hopening])
      (show (done.reverse ++ output).length + (pending ++ opening :: waiting).length ≤ capacity by
        simp only [List.length_append, List.length_reverse, List.length_cons]; omega)
    rw [← List.append_assoc, ← List.reverse_append, hspelled] at hgroup
    have hkind : closing.kind.startsOperand = false := by rw [hclosing]; rfl
    have haccept : (holding capacity (done.reverse ++ output) (pending ++ opening :: waiting)
        (some last)).accept closing =
        .ok (holding capacity (spelled.reverse ++ output) waiting (some last)) := by
      rw [Yard.accept, hclosing]
      exact hgroup
    exact apply_of_not_juxtaposes (juxtaposes_eq_false_of_kind hkind _) haccept
  refine ⟨spelled, [], closing.kind, by simp, by simp, by rw [hclosing]; rfl, ?_⟩
  rw [List.foldlM_cons, hopen, ok_bind, List.foldlM_append]
  change (ts.foldlM Yard.apply (holding capacity output (opening :: waiting) _) >>= _) = _
  rw [hrun, ok_bind, List.foldlM_cons, hclose]
  rfl

/-- A postfix operator sends the ones in front of it to the output. -/
theorem applied (inner : Reads 3 ts spelled) (kind : t.kind.isPostfix = true)
    (hlength : spelled.length < 2 * ts.length) : Reads 3 (ts ++ [t]) (spelled ++ [t]) := by
  intro capacity output waiting previous hprevious hwaiting hroom
  rw [List.length_append, List.length_singleton] at hroom
  have hprec : t.kind.precedence = 3 := by
    obtain ⟨k, value, position⟩ := t
    cases k with
    | star | plus | question => rfl
    | _ => cases kind
  obtain ⟨done, pending, last, hspelled, hpending, -, hrun⟩ := inner hprevious hwaiting
    (show output.length + waiting.length + 2 * ts.length ≤ capacity by omega)
  have hlengths := congrArg List.length hspelled
  rw [List.length_append] at hlengths
  have hop := operator_holding_append (some last) t (hprec ▸ hpending) (hprec ▸ hwaiting)
    (show (done.reverse ++ output).length + (pending ++ waiting).length < capacity by
      simp only [List.length_append, List.length_reverse]; omega)
  refine ⟨spelled, [t], t.kind, rfl, by simp [hprec], by simp [Kind.endsOperand, kind], ?_⟩
  rw [List.foldlM_append, hrun, ok_bind, List.foldlM_cons, apply_operator (.inl kind) hop,
    ← hspelled, List.reverse_append, List.append_assoc]
  rfl

/-- When a binary operator waits on top of all that was there, its right operand
is read as the rest of the whole expression. -/
theorem onto (upper : Reads (n + 1) us spelled) (hprec : t.kind.precedence = n)
    (before : List Token) {capacity : Nat} {output waiting : List Token} {previous : Option Kind}
    (hprevious : previous.any Kind.endsOperand = false)
    (hroom : before.length + output.length + (t :: waiting).length + 2 * us.length ≤ capacity) :
    HasRead n (before ++ spelled ++ [t]) capacity output waiting
      (us.foldlM Yard.apply
        (holding capacity (before.reverse ++ output) (t :: waiting) previous)) := by
  have hloose : Loose (n + 1) (t :: waiting) := by
    intro s hs
    cases hs
    rw [hprec]
    exact Nat.lt_succ_self n
  obtain ⟨done, pending, last, hspelled, hpending, hlast, hrun⟩ := upper hprevious hloose
    (show (before.reverse ++ output).length + (t :: waiting).length + 2 * us.length ≤ capacity by
      rw [List.length_append, List.length_reverse]; omega)
  refine ⟨before ++ done, pending ++ [t], last, ?_, ?_, hlast, ?_⟩
  · rw [← hspelled]
    simp only [List.append_assoc]
  · intro s hs
    rcases List.mem_append.mp hs with hs | hs
    · exact Nat.le_of_succ_le (hpending s hs)
    · rw [List.mem_singleton.mp hs, hprec]
  · rw [hrun]
    simp only [List.reverse_append, List.append_assoc, List.cons_append, List.nil_append]

/-- An operator token joins what stands in front of it and what stands behind
it. -/
theorem binary (hlower : Reads n ts lower) (hprec : t.kind.precedence = n)
    (kind : t.kind = .union ∨ t.kind = .concat) (hupper : Reads (n + 1) us upper)
    (hlength : lower.length < 2 * ts.length) :
    Reads n (ts ++ t :: us) (lower ++ upper ++ [t]) := by
  intro capacity output waiting previous hprevious hwaiting hroom
  rw [List.length_append, List.length_cons] at hroom
  obtain ⟨done, pending, last, hspelled, hpending, -, hrun⟩ := hlower hprevious hwaiting
    (show output.length + waiting.length + 2 * ts.length ≤ capacity by omega)
  have hlengths := congrArg List.length hspelled
  rw [List.length_append] at hlengths
  have hop := operator_holding_append (some last) t (hprec ▸ hpending) (hprec ▸ hwaiting)
    (show (done.reverse ++ output).length + (pending ++ waiting).length < capacity by
      simp only [List.length_append, List.length_reverse]; omega)
  rw [← List.append_assoc, ← List.reverse_append, hspelled] at hop
  rw [List.foldlM_append, hrun, ok_bind, List.foldlM_cons, apply_operator (.inr kind) hop]
  refine hupper.onto hprec lower ?_ (by rw [List.length_cons]; omega)
  rcases kind with kind | kind <;> rw [kind] <;> rfl

/-- A factor that stands right behind a sequence is joined to it by a token that
points to the start of the factor. -/
theorem juxtapose {u : Token} (hlower : Reads 2 ts lower) (hstarts : u.kind.startsOperand = true)
    (hupper : Reads 3 (u :: us) upper) (hlength : lower.length < 2 * ts.length) :
    Reads 2 (ts ++ u :: us) (lower ++ upper ++ [Token.bare .concat u.position]) := by
  intro capacity output waiting previous hprevious hwaiting hroom
  rw [List.length_append, List.length_cons] at hroom
  obtain ⟨done, pending, last, hspelled, hpending, hlast, hrun⟩ := hlower hprevious hwaiting
    (show output.length + waiting.length + 2 * ts.length ≤ capacity by omega)
  have hlengths := congrArg List.length hspelled
  rw [List.length_append] at hlengths
  have hop := operator_holding_append (some last) (Token.bare .concat u.position) hpending hwaiting
    (show (done.reverse ++ output).length + (pending ++ waiting).length < capacity by
      simp only [List.length_append, List.length_reverse]; omega)
  have hjoin : (holding capacity (done.reverse ++ output) (pending ++ waiting)
      (some last)).juxtaposes u.kind = true := by
    simp [Yard.juxtaposes, hstarts, holding, hlast]
  rw [List.foldlM_append, hrun, ok_bind, List.foldlM_cons, apply_of_juxtaposes hjoin hop,
    ← List.foldlM_cons, ← List.append_assoc, ← List.reverse_append, hspelled]
  refine hupper.onto (t := Token.bare .concat u.position) rfl lower rfl ?_
  simp only [List.length_cons]
  omega

end Reads

/-- The tokens of a derivation are read as its expression. -/
theorem reads_of_derives {rank : Rank} {ts : List Token} {e : Expr} (h : Derives rank ts e) :
    Reads rank.floor ts e.postorder := by
  induction h with
  | operand kind => exact Reads.operand kind
  | group hopening inner hclosing ih => exact ih.group hopening hclosing inner.length_postorder_lt
  | ofUnit _ ih | ofFactor _ ih | ofSequence _ ih => exact ih.mono (by decide)
  | star inner kind ih | plus inner kind ih | question inner kind ih =>
    exact ih.applied (by rw [kind]; rfl) inner.length_postorder_lt
  | juxtapose lower upper ihl ihu =>
    obtain ⟨_, _, heq, hstarts⟩ := upper.exists_cons
    cases heq
    exact ihl.juxtapose hstarts ihu lower.length_postorder_lt
  | concat lower kind upper ihl ihu =>
    exact ihl.binary (by rw [kind]; rfl) (.inr kind) ihu lower.length_postorder_lt
  | union lower kind upper ihl ihu =>
    exact ihl.binary (by rw [kind]; rfl) (.inl kind) ihu lower.length_postorder_lt

/-- What a derivation derives comes out in postorder. -/
theorem ofTokens_of_derives {ts : List Token} {e : Expr} (h : Derives .choice (body ts) e) :
    ofTokens ts = .ok e.postorder := by
  have hbody := length_body_le ts
  have hlength := h.length_postorder_lt
  obtain ⟨done, pending, last, hspelled, hpending, -, hrun⟩ := reads_of_derives h
    (show (none : Option Kind).any Kind.endsOperand = false from rfl)
    (show Loose 1 [] from fun _ hs => nomatch hs)
    (show ([] : List Token).length + ([] : List Token).length + 2 * (body ts).length ≤ 2 * ts.length
      by simp only [List.length_nil]; omega)
  have hlengths := congrArg List.length hspelled
  rw [List.length_append] at hlengths
  have hinner : ∀ s ∈ pending, Yard.inGroup s = true := by
    intro s hs
    exact Yard.inGroup_of_precedence (hpending s hs)
  rw [ofTokens_eq, Yard.ofRoom_eq_holding, hrun, ok_bind, List.append_nil, List.append_nil,
    Yard.finish_holding hinner (by rw [List.length_reverse]; omega), List.reverse_reverse, hspelled]

/-- A stream derives one expression at most, the one that its postorder spells. -/
theorem derives_unique {ts : List Token} {d e : Expr} (hd : Derives .choice (body ts) d)
    (he : Derives .choice (body ts) e) : d = e := by
  have hordered := ofTokens_of_derives hd
  rw [ofTokens_of_derives he] at hordered
  injection hordered with hordered
  have hspelled := Expr.ofRpn?_postorder hd.kinded
  rw [← hordered, Expr.ofRpn?_postorder he.kinded] at hspelled
  injection hspelled with hspelled
  exact hspelled.symm

/-- A stream that derives an expression is put into the postorder of it, which
spells this expression and no other, and the stream derives no other. -/
theorem derived_in_postorder {ts : List Token} {e : Expr} (h : Derives .choice (body ts) e) :
    ofTokens ts = .ok e.postorder ∧ Expr.ofRpn? e.postorder = some e ∧
      ∀ d, Derives .choice (body ts) d → d = e :=
  ⟨ofTokens_of_derives h, Expr.ofRpn?_postorder h.kinded, fun _ hd => derives_unique hd h⟩

/-- A stream with a concatenation of both sorts, a group, and more behind its end. -/
def stream : List Token :=
  [⟨.literal, "a", 0⟩, ⟨.concat, "", 1⟩, ⟨.literal, "b", 1⟩, ⟨.openParen, "(", 2⟩,
    ⟨.escape, "d", 3⟩, ⟨.closeParen, ")", 5⟩, ⟨.plus, "+", 6⟩, ⟨.endMark, "", 7⟩,
    ⟨.closeParen, ")", 8⟩]

/-- What `stream` derives. -/
def streamExpr : Expr :=
  .concat ⟨.concat, "", 2⟩
    (.concat ⟨.concat, "", 1⟩ (.atom ⟨.literal, "a", 0⟩) (.atom ⟨.literal, "b", 1⟩))
    (.plus ⟨.plus, "+", 6⟩ (.atom ⟨.escape, "d", 3⟩))

theorem derives_stream : Derives .choice (body stream) streamExpr := by
  have hoperand : ∀ t : Token, t.kind.isOperand = true → Derives .factor [t] (.atom t) :=
    fun _ ht => .ofUnit (.operand ht)
  have hlower := (Derives.ofFactor (hoperand ⟨.literal, "a", 0⟩ rfl)).concat
    (t := ⟨.concat, "", 1⟩) rfl (hoperand ⟨.literal, "b", 1⟩ rfl)
  have hinner := Derives.ofSequence (.ofFactor (hoperand ⟨.escape, "d", 3⟩ rfl))
  have hgroup := @Derives.group ⟨.openParen, "(", 2⟩ ⟨.closeParen, ")", 5⟩ _ _ rfl hinner rfl
  have hupper := (Derives.ofUnit hgroup).plus (t := ⟨.plus, "+", 6⟩) rfl
  exact .ofSequence (hlower.juxtapose hupper)

theorem derived_in_postorder_stream :
    Derives .choice (body stream) streamExpr ∧ ofTokens stream = .ok streamExpr.postorder ∧
      Expr.ofRpn? streamExpr.postorder = some streamExpr ∧
        ∀ d, Derives .choice (body stream) d → d = streamExpr :=
  ⟨derives_stream, derived_in_postorder derives_stream⟩

end Rpn

end PatternAutomata
