import PatternAutomata.Proofs.Places
import PatternAutomata.Proofs.Rpn.Nesting

/-!
# Groups that stay open

An open parenthesis is left open if what stands behind it never closes more groups than
it opens (`Unclosed`).  This looks at the place of the parenthesis and at nothing else.

A yard finds the same parentheses in another way, since it forgets a parenthesis when its
partner comes.  Seen from the front, some tokens close groups that were open before
(`closes`) and leave some of their own open (`leavesOpen`).  Both are told by recursion
on the tokens, and both agree with what is said of places (`closes_le_iff`,
`leavesOpen_eq_nil_iff`).  The open parentheses that wait in a yard behind the tokens are
those that the tokens leave open, on top of those that they do not close
(`Yard.openings_foldlM`).
-/

namespace PatternAutomata

/-! ## Places -/

/-- What was opened in front of tokens is not closed by them: no prefix of them closes more
groups than it opens. -/
def KeepsOpen (ts : List Token) : Prop :=
  ∀ before, before <+: ts.map Token.kind → before.count .closeParen ≤ before.count .openParen

/-- An open parenthesis that nothing behind it closes. -/
def Unclosed (t : Token) (behind : List Token) : Prop := t.kind = .openParen ∧ KeepsOpen behind

/-- Every group that is opened is closed. -/
def AllClosed (ts : List Token) : Prop := Nowhere (fun _ => Unclosed) ts

variable {ts us before behind : List Token} {t : Token} {n : Nat}

/-- Tokens leave no group open, or there is a last one that they leave open. -/
theorem allClosed_or_exists_last (ts : List Token) :
    AllClosed ts ∨
      ∃ before t behind, ts = before ++ t :: behind ∧ Unclosed t behind ∧ AllClosed behind := by
  induction ts with
  | nil => exact .inl nowhere_nil
  | cons t ts ih =>
    rcases ih with hclosed | ⟨before, u, behind, rfl, hu, hbehind⟩
    · by_cases ht : Unclosed t ts
      · exact .inr ⟨[], t, ts, rfl, ht, hclosed⟩
      · exact .inl (nowhere_cons.mpr ⟨ht, hclosed⟩)
    · exact .inr ⟨t :: before, u, behind, rfl, hu, hbehind⟩

/-! ## Counting from the front -/

/-- How many groups that were open in front of tokens they close. -/
def closes : List Token → Nat
  | [] => 0
  | t :: ts =>
    match t.kind with
    | .openParen => closes ts - 1
    | .closeParen => closes ts + 1
    | _ => closes ts

/-- The open parentheses that tokens leave open, innermost first. -/
def leavesOpen : List Token → List Token
  | [] => []
  | t :: ts => if t.kind = .openParen ∧ closes ts = 0 then leavesOpen ts ++ [t] else leavesOpen ts

/-- Tokens close so many groups at most if and only if no prefix of them closes more. -/
theorem closes_le_iff : closes ts ≤ n ↔ ∀ before, before <+: ts.map Token.kind →
    before.count .closeParen ≤ n + before.count .openParen := by
  induction ts generalizing n with
  | nil => simp [closes]
  | cons t ts ih =>
    rw [List.map_cons, forall_prefix_cons, closes]
    cases t.kind with
    | openParen =>
      rw [Nat.sub_le_iff_le_add, ih]
      simp [Nat.add_assoc, Nat.add_comm 1]
    | closeParen =>
      cases n with
      | zero =>
        refine iff_of_false (by simp) fun h => ?_
        have hfirst := h.2 [] List.nil_prefix
        simp at hfirst
      | succ n =>
        rw [Nat.add_le_add_iff_right, ih]
        simp [Nat.add_right_comm n 1]
    | _ => simp [ih]

theorem keepsOpen_iff : KeepsOpen ts ↔ closes ts = 0 := by
  rw [← Nat.le_zero, closes_le_iff, KeepsOpen]
  simp only [Nat.zero_add]

theorem leavesOpen_eq_nil_iff : leavesOpen ts = [] ↔ AllClosed ts := by
  induction ts with
  | nil => exact iff_of_true rfl nowhere_nil
  | cons t ts ih =>
    rw [AllClosed, nowhere_cons, Unclosed, keepsOpen_iff, leavesOpen, ← AllClosed, ← ih]
    split
    · next h => simp [h]
    · next h => simp [h]

/-- What tokens leave open lies on top of what those before them leave open. -/
theorem leavesOpen_append (ts us : List Token) :
    ∃ outer, leavesOpen (ts ++ us) = leavesOpen us ++ outer := by
  induction ts with
  | nil => exact ⟨[], (List.append_nil _).symm⟩
  | cons t ts ih =>
    obtain ⟨outer, hrest⟩ := ih
    rw [List.cons_append, leavesOpen, hrest]
    split
    · exact ⟨outer ++ [t], List.append_assoc ..⟩
    · exact ⟨outer, rfl⟩

/-- The innermost of the groups that are left open is the last one. -/
theorem leavesOpen_of_last (ht : Unclosed t behind) (hbehind : AllClosed behind) :
    ∃ outer, leavesOpen (before ++ t :: behind) = t :: outer := by
  obtain ⟨outer, hleft⟩ := leavesOpen_append before (t :: behind)
  refine ⟨outer, ?_⟩
  rw [hleft, leavesOpen, if_pos ⟨ht.1, keepsOpen_iff.mp ht.2⟩, leavesOpen_eq_nil_iff.mpr hbehind,
    List.nil_append, List.singleton_append]

/-- One token after the other: first it closes a group or leaves its own open, then the
others do so. -/
theorem leavesOpen_cons (t : Token) (ts outer : List Token) :
    leavesOpen (t :: ts) ++ outer.drop (closes (t :: ts)) =
      leavesOpen ts ++ (leavesOpen [t] ++ outer.drop (closes [t])).drop (closes ts) := by
  cases hkind : t.kind with
  | openParen =>
    -- The group of the token is the first one that the others close.
    cases hcloses : closes ts with
    | zero => simp [leavesOpen, closes, hkind, hcloses]
    | succ n => simp [leavesOpen, closes, hkind, hcloses]
  | closeParen => simp [leavesOpen, closes, hkind]
  | _ => simp [leavesOpen, closes, hkind]

/-- Where no prefix closes more groups than it opens and as many are closed as opened, every
group is closed. -/
theorem allClosed_of_balanced (hkeeps : KeepsOpen ts)
    (heq : (ts.map Token.kind).count .closeParen = (ts.map Token.kind).count .openParen) :
    AllClosed ts := by
  rintro before t behind rfl ⟨hopen, hbehind⟩
  have hfront := hkeeps (before.map Token.kind) (by simp)
  have hrest := hbehind (behind.map Token.kind) (List.prefix_refl _)
  simp [hopen] at heq
  omega

namespace Rpn.Yard

/-! ## The open parentheses of a yard -/

variable {y y' : Yard}

theorem openings_accept (h : y.accept t = .ok y') :
    y'.openings = leavesOpen [t] ++ y.openings.drop (closes [t]) := by
  unfold accept at h
  cases hkind : t.kind with
  | literal | escape =>
    rw [hkind] at h
    simp [openings_operand h, leavesOpen, closes, hkind]
  | openParen =>
    rw [hkind] at h
    simp [openings_openGroup h hkind, leavesOpen, closes, hkind]
  | closeParen =>
    rw [hkind] at h
    obtain ⟨opening, hopening⟩ := openings_closeGroup h
    simp [hopening, leavesOpen, closes, hkind]
  | star | plus | question | union | concat =>
    rw [hkind] at h
    have hoperator := openings_operator h (by rw [hkind]; decide)
    simp [hoperator, leavesOpen, closes, hkind]
  | epsilon | endMark =>
    rw [hkind] at h
    cases h

theorem openings_apply (h : y.apply t = .ok y') :
    y'.openings = leavesOpen [t] ++ y.openings.drop (closes [t]) := by
  obtain ⟨joined, hjoined, hrest⟩ := bind_eq_ok_iff.mp h
  obtain ⟨taken, htaken, hy⟩ := bind_eq_ok_iff.mp hrest
  cases hy
  change taken.openings = _
  rw [openings_accept htaken, openings_join hjoined]

/-- Behind tokens those parentheses wait that the tokens leave open, on top of those that
they do not close. -/
theorem openings_foldlM (h : ts.foldlM apply y = .ok y') :
    y'.openings = leavesOpen ts ++ y.openings.drop (closes ts) := by
  induction ts generalizing y with
  | nil =>
    cases h
    rfl
  | cons t ts ih =>
    obtain ⟨next, hnext, hrest⟩ := bind_eq_ok_iff.mp h
    rw [ih hrest, openings_apply hnext, ← leavesOpen_cons]

end Rpn.Yard

end PatternAutomata
