import PatternAutomata.Expr.Basic

/-!
# The grammar of tokens

Tokens in reading order form an expression by the rules

* a choice is a choice, a `|` and a sequence, or a sequence alone,
* a sequence is a sequence and a factor, with or without a concatenation token
  between them, or a factor alone,
* a factor is a factor and one of `*`, `+` and `?`, or a unit alone,
* a unit is an operand, or a choice between parentheses.

So choices and sequences are grouped to the left, and parentheses leave no trace
in the expression.  A factor that follows a sequence without a token between them
adds a concatenation, which has no text and stands where the factor begins.
-/

namespace PatternAutomata

/-- The sorts of expressions, from the loosest to the tightest. -/
inductive Rank where
  | choice
  | sequence
  | factor
  | unit
deriving DecidableEq

/-- The tokens form an expression of a rank. -/
inductive Derives : Rank → List Token → Expr → Prop where
  | operand {t : Token} (kind : t.kind.isOperand = true) : Derives .unit [t] (.atom t)
  | group {opening closing : Token} {ts : List Token} {e : Expr}
      (hopening : opening.kind = .openParen) (inner : Derives .choice ts e)
      (hclosing : closing.kind = .closeParen) :
      Derives .unit (opening :: (ts ++ [closing])) e
  | ofUnit {ts : List Token} {e : Expr} (inner : Derives .unit ts e) : Derives .factor ts e
  | star {ts : List Token} {e : Expr} {t : Token} (inner : Derives .factor ts e)
      (kind : t.kind = .star) : Derives .factor (ts ++ [t]) (.star t e)
  | plus {ts : List Token} {e : Expr} {t : Token} (inner : Derives .factor ts e)
      (kind : t.kind = .plus) : Derives .factor (ts ++ [t]) (.plus t e)
  | question {ts : List Token} {e : Expr} {t : Token} (inner : Derives .factor ts e)
      (kind : t.kind = .question) : Derives .factor (ts ++ [t]) (.question t e)
  | ofFactor {ts : List Token} {e : Expr} (inner : Derives .factor ts e) : Derives .sequence ts e
  | juxtapose {ts us : List Token} {d e : Expr} {u : Token} (lower : Derives .sequence ts d)
      (upper : Derives .factor (u :: us) e) :
      Derives .sequence (ts ++ u :: us) (.concat (Token.bare .concat u.position) d e)
  | concat {ts us : List Token} {d e : Expr} {t : Token} (lower : Derives .sequence ts d)
      (kind : t.kind = .concat) (upper : Derives .factor us e) :
      Derives .sequence (ts ++ t :: us) (.concat t d e)
  | ofSequence {ts : List Token} {e : Expr} (inner : Derives .sequence ts e) : Derives .choice ts e
  | union {ts us : List Token} {d e : Expr} {t : Token} (lower : Derives .choice ts d)
      (kind : t.kind = .union) (upper : Derives .sequence us e) :
      Derives .choice (ts ++ t :: us) (.union t d e)

namespace Derives

variable {rank : Rank} {ts : List Token} {e : Expr}

theorem ne_nil (h : Derives rank ts e) : ts ≠ [] := by
  induction h with
  | ofUnit _ ih | ofFactor _ ih | ofSequence _ ih => exact ih
  | _ => simp

/-- An expression starts with a token that can start an operand. -/
theorem exists_cons (h : Derives rank ts e) :
    ∃ u us, ts = u :: us ∧ u.kind.startsOperand = true := by
  induction h with
  | @operand t kind => exact ⟨t, [], rfl, by simp [Kind.startsOperand, kind]⟩
  | @group opening closing ts _ hopening _ _ _ =>
    exact ⟨opening, ts ++ [closing], rfl, by simp [Kind.startsOperand, hopening]⟩
  | ofUnit _ ih | ofFactor _ ih | ofSequence _ ih => exact ih
  | star _ _ ih | plus _ _ ih | question _ _ ih =>
    obtain ⟨u, us, rfl, hu⟩ := ih
    exact ⟨u, us ++ [_], rfl, hu⟩
  | juxtapose _ _ ih _ | concat _ _ _ ih _ | union _ _ _ ih _ =>
    obtain ⟨u, us, rfl, hu⟩ := ih
    exact ⟨u, us ++ _, rfl, hu⟩

/-- An expression ends in a token that can end an operand. -/
theorem exists_append_last (h : Derives rank ts e) :
    ∃ us u, ts = us ++ [u] ∧ u.kind.endsOperand = true := by
  induction h with
  | @operand t kind => exact ⟨[], t, rfl, by simp [Kind.endsOperand, kind]⟩
  | @group opening closing ts _ _ _ hclosing _ =>
    exact ⟨opening :: ts, closing, rfl, by simp [Kind.endsOperand, hclosing]⟩
  | ofUnit _ ih | ofFactor _ ih | ofSequence _ ih => exact ih
  | @star ts _ t _ kind _ | @plus ts _ t _ kind _ | @question ts _ t _ kind _ =>
    exact ⟨ts, t, rfl, by rw [kind]; rfl⟩
  | @juxtapose ts us _ _ u _ _ _ ih =>
    obtain ⟨vs, v, heq, hv⟩ := ih
    exact ⟨ts ++ vs, v, by rw [heq, List.append_assoc], hv⟩
  | @concat ts us _ _ t _ _ _ _ ih | @union ts us _ _ t _ _ _ _ ih =>
    obtain ⟨vs, v, rfl, hv⟩ := ih
    exact ⟨ts ++ t :: vs, v, by rw [List.append_assoc, List.cons_append], hv⟩

/-- Every token of a derived expression is of the kind of its node. -/
theorem kinded (h : Derives rank ts e) : e.Kinded := by
  induction h with
  | operand kind => exact kind
  | group _ _ _ ih | ofUnit _ ih | ofFactor _ ih | ofSequence _ ih => exact ih
  | star _ kind ih | plus _ kind ih | question _ kind ih => exact ⟨kind, ih⟩
  | juxtapose _ _ ihl ihu => exact ⟨rfl, ihl, ihu⟩
  | concat _ kind _ ihl ihu | union _ kind _ ihl ihu => exact ⟨kind, ihl, ihu⟩

end Derives

end PatternAutomata
