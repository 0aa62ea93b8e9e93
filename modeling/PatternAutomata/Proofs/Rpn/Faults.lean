import Mathlib.Data.List.Induction
import PatternAutomata.Proofs.Rpn.MoreRoom
import PatternAutomata.Proofs.Rpn.OpenGroups

/-!
# Where a reordering gives up

Only parentheses and tokens without a place keep a stream from being put into postorder.
A token is misplaced if reading order has no place for it, or if it closes a group where
every group is closed (`Misplaced`).  The first misplaced token is told.  If there is none,
the last open parenthesis that is never closed is told.  If there is none either, the
stream is put into postorder (`ofTokens_faults`).

There is no other fault.  A token brings at most two tokens into the yard, so the room is
enough for every stream, and what stands behind the mark of the end has no effect: it only
makes more room.
-/

namespace PatternAutomata

/-- A token of a kind is misplaced behind these tokens. -/
inductive Misplaced (before : List Token) : Kind → ParseCause → Prop where
  /-- The empty label has no place in reading order. -/
  | stray : Misplaced before .epsilon .strayToken
  /-- There is no open group to close. -/
  | unmatchedClose (closed : AllClosed before) : Misplaced before .closeParen .unmatchedClose

/-- No token is misplaced. -/
def InPlace (ts : List Token) : Prop :=
  Nowhere (fun before t _ => ∃ cause, Misplaced before t.kind cause) ts

/-- What is told about the tokens of a stream that cannot be put into postorder. -/
inductive Told : List Token → ParseFault → Prop where
  /-- The first misplaced token is told. -/
  | misplaced {before behind : List Token} {t : Token} {cause : ParseCause}
      (placed : InPlace before) (misplaced : Misplaced before t.kind cause) :
      Told (before ++ t :: behind) (cause.fault t.position)
  /-- If all tokens are in their places, the last open parenthesis is told that nothing
  closes. -/
  | unclosed {before behind : List Token} {t : Token} (placed : InPlace (before ++ t :: behind))
      (unclosed : Unclosed t behind) (closed : AllClosed behind) :
      Told (before ++ t :: behind) (ParseCause.unmatchedOpen.fault t.position)

variable {ts us before behind : List Token} {t : Token} {cause : ParseCause}

/-- Tokens are in their places, or there is a first one that is not. -/
theorem inPlace_or_exists_first (ts : List Token) :
    InPlace ts ∨ ∃ before t behind cause, ts = before ++ t :: behind ∧ InPlace before ∧
      Misplaced before t.kind cause := by
  rcases nowhere_or_exists_first (fun before t _ => ∃ cause, Misplaced before t.kind cause) ts
    with hplaced | ⟨before, t, behind, heq, ⟨cause, ht⟩, hbefore⟩
  · exact .inl hplaced
  · exact .inr ⟨before, t, behind, cause, heq, hbefore, ht⟩

/-- Something is told about tokens, or they are in their places and their groups closed. -/
theorem told_or_inPlace (ts : List Token) :
    (∃ fault, Told ts fault) ∨ InPlace ts ∧ AllClosed ts := by
  rcases inPlace_or_exists_first ts with hplaced | ⟨before, t, behind, cause, rfl, hbefore, ht⟩
  · rcases allClosed_or_exists_last ts with hclosed | ⟨before, t, behind, rfl, ht, hbehind⟩
    · exact .inr ⟨hplaced, hclosed⟩
    · exact .inl ⟨_, .unclosed hplaced ht hbehind⟩
  · exact .inl ⟨_, .misplaced hbefore ht⟩

/-- A lack of room is never told. -/
theorem Told.kind_ne_capacityExceeded {fault : ParseFault} (h : Told ts fault) :
    fault.kind ≠ .capacityExceeded := by
  cases h with
  | @misplaced before behind t cause placed misplaced =>
    generalize t.kind = kind at misplaced
    cases misplaced with
    | stray => nofun
    | unmatchedClose => nofun
  | unclosed => nofun

namespace Rpn

/-! ## Running a yard -/

/-- Tokens in their places nest: the groups that they open are as many as they close, and
those that they leave open. -/
theorem exists_nesting (hplaced : InPlace ts) (hend : ∀ t ∈ ts, t.kind ≠ .endMark) :
    ∃ opened, nesting 0 (ts.map Token.kind) = some opened := by
  induction ts using List.reverseRecOn with
  | nil => exact ⟨0, rfl⟩
  | append_singleton ts t ih =>
    obtain ⟨hts, ht⟩ := nowhere_append_singleton.mp hplaced
    obtain ⟨opened, hopened⟩ := ih hts fun u hu => hend u (List.mem_append_left _ hu)
    have hmark : t.kind ≠ .endMark := hend t (by simp)
    rw [List.map_append, List.map_singleton, nesting_append_singleton, hopened, Option.bind_some]
    cases hkind : t.kind with
    | epsilon => exact (ht ⟨.strayToken, by rw [hkind]; exact .stray⟩).elim
    | endMark => exact absurd hkind hmark
    | closeParen =>
      cases opened with
      | zero =>
        -- Nothing is left open, so the token has nothing to close.
        obtain ⟨-, hkeeps, hbalanced⟩ := nesting_eq_some_iff.mp hopened
        simp only [Nat.zero_add] at hkeeps hbalanced
        have hclosed := allClosed_of_balanced hkeeps hbalanced
        exact (ht ⟨.unmatchedClose, by rw [hkind]; exact .unmatchedClose hclosed⟩).elim
      | succ opened => exact ⟨opened, rfl⟩
    | _ => exact ⟨_, rfl⟩

/-- A yard gets through tokens in their places, and those parentheses wait in it that the
tokens leave open. -/
theorem exists_run {room : Nat} (hplaced : InPlace ts) (hend : ∀ t ∈ ts, t.kind ≠ .endMark)
    (hroom : 2 * ts.length ≤ room) :
    ∃ y, ts.foldlM Yard.apply (Yard.ofRoom room) = .ok y ∧ y.Fits room (2 * ts.length) ∧
      y.openings = leavesOpen ts := by
  obtain ⟨opened, hnest⟩ := exists_nesting hplaced hend
  obtain ⟨y, hrun, hfits, -⟩ := (Yard.Fits.ofRoom room).foldlM_apply (by omega) hnest
  rw [Nat.zero_add] at hfits
  refine ⟨y, hrun, hfits, ?_⟩
  have hopenings := Yard.openings_foldlM hrun
  rwa [show (Yard.ofRoom room).openings = [] from rfl, List.drop_nil, List.append_nil] at hopenings

namespace Yard

variable {y : Yard} {capacity n : Nat}

/-- A token that is no right operand is refused if it is not taken. -/
theorem apply_of_accept_error {fault : ParseFault} (hkind : t.kind.startsOperand = false)
    (h : y.accept t = .error fault) : y.apply t = .error fault := by
  rw [apply, join, juxtaposes_eq_false_of_kind hkind, if_neg Bool.false_ne_true, ok_bind, h,
    error_bind]

/-- A misplaced token is told where it stands. -/
theorem Fits.apply_of_misplaced (h : y.Fits capacity n) (hroom : n ≤ capacity)
    (hopenings : y.openings = leavesOpen before) (ht : Misplaced before t.kind cause) :
    y.apply t = .error (cause.fault t.position) := by
  generalize hkind : t.kind = kind at ht
  cases ht with
  | stray =>
    refine apply_of_accept_error (by rw [hkind]; rfl) ?_
    rw [Yard.accept, hkind]
    rfl
  | unmatchedClose closed =>
    rw [leavesOpen_eq_nil_iff.mpr closed] at hopenings
    have hwaiting := inGroup_of_openings_eq_nil hopenings
    obtain ⟨output, waiting, heq, hlength⟩ := h
    rw [heq] at hwaiting
    refine apply_of_accept_error (by rw [hkind]; rfl) ?_
    rw [Yard.accept, hkind, heq]
    exact closeGroup_holding_outermost y.previous t.position hwaiting (Nat.le_trans hlength hroom)

/-- A group that is open in the end is told, the innermost one first. -/
theorem Fits.finish_of_openings {opening : Token} {outer : List Token} (h : y.Fits capacity n)
    (hroom : n ≤ capacity) (hopenings : y.openings = opening :: outer) :
    y.finish = .error (ParseCause.unmatchedOpen.fault opening.position) := by
  obtain ⟨inner, below, hsplit, hinner, hopening⟩ := exists_of_openings hopenings
  obtain ⟨output, waiting, heq, hlength⟩ := h
  rw [heq] at hsplit
  obtain rfl : waiting = inner ++ opening :: below := hsplit
  rw [heq]
  exact finish_holding_opening hinner hopening (Nat.le_trans hlength hroom)

end Yard

/-! ## Streams -/

theorem length_le_of_prefix_body (h : before <+: body ts) : before.length ≤ ts.length :=
  Nat.le_trans h.length_le (length_body_le ts)

/-- The yard of a stream gets through its tokens as long as they are in their places. -/
theorem exists_run_of_prefix (hfront : before <+: body ts) (hplaced : InPlace before) :
    ∃ y, before.foldlM Yard.apply (Yard.ofRoom (2 * ts.length)) = .ok y ∧
      y.Fits (2 * ts.length) (2 * before.length) ∧ y.openings = leavesOpen before := by
  have hlength := length_le_of_prefix_body hfront
  exact exists_run hplaced (fun u hu => kind_ne_endMark_of_mem_body (hfront.subset hu)) (by omega)

/-- A yard gets no further than to the first misplaced token. -/
theorem run_of_misplaced (hfront : before ++ [t] <+: body ts) (hplaced : InPlace before)
    (ht : Misplaced before t.kind cause) :
    (before ++ t :: behind).foldlM Yard.apply (Yard.ofRoom (2 * ts.length)) =
      .error (cause.fault t.position) := by
  have hlength := length_le_of_prefix_body hfront
  rw [List.length_append, List.length_singleton] at hlength
  obtain ⟨y, hrun, hfits, hopenings⟩ :=
    exists_run_of_prefix ((List.prefix_append before [t]).trans hfront) hplaced
  rw [List.foldlM_append, hrun, ok_bind, List.foldlM_cons,
    hfits.apply_of_misplaced (by omega) hopenings ht, error_bind]

/-- Between two tokens a yard holds at most twice as many tokens as it has taken. -/
theorem length_le_of_run {y : Yard} (hfront : before <+: body ts)
    (hrun : before.foldlM Yard.apply (Yard.ofRoom (2 * ts.length)) = .ok y) :
    y.output.tokens.length + y.waiting.tokens.length ≤ 2 * before.length := by
  rcases inPlace_or_exists_first before with hplaced | ⟨front, t, rest, cause, rfl, hplaced, ht⟩
  · obtain ⟨y', hrun', ⟨output, waiting, heq, hlength⟩, -⟩ := exists_run_of_prefix hfront hplaced
    cases hrun.symm.trans hrun'
    rw [heq]
    exact hlength
  · have hnext : front ++ [t] <+: body ts := by
      rw [← List.singleton_append, ← List.append_assoc] at hfront
      exact (List.prefix_append _ rest).trans hfront
    rw [run_of_misplaced hnext hplaced ht] at hrun
    cases hrun

/-- What comes out of a yard has been in it. -/
theorem length_le_of_ofTokens {rpn : List Token} (h : ofTokens ts = .ok rpn) :
    rpn.length ≤ 2 * (body ts).length := by
  rw [ofTokens_eq] at h
  obtain ⟨y, hrun, hfinish⟩ := bind_eq_ok_iff.mp h
  obtain ⟨-, rfl⟩ := Yard.finish_eq_ok hfinish
  rw [List.length_append, List.length_reverse]
  exact length_le_of_run (List.prefix_refl _) hrun

/-- What is told about the tokens in front of the mark of the end is told about the
stream. -/
theorem ofTokens_of_told {fault : ParseFault} (h : Told (body ts) fault) :
    ofTokens ts = .error fault := by
  generalize hbody : body ts = read at h
  cases h with
  | @misplaced before behind t cause hplaced ht =>
    have hfront : before ++ [t] <+: body ts := by simp [hbody]
    rw [ofTokens_eq, hbody, run_of_misplaced hfront hplaced ht, error_bind]
  | @unclosed before behind t hplaced ht hclosed =>
    have hfront : before ++ t :: behind <+: body ts := hbody ▸ List.prefix_refl _
    have hlength := length_le_of_prefix_body hfront
    obtain ⟨y, hrun, hfits, hopenings⟩ := exists_run_of_prefix hfront hplaced
    obtain ⟨outer, houter⟩ : ∃ outer, leavesOpen (before ++ t :: behind) = t :: outer :=
      leavesOpen_of_last ht hclosed
    rw [houter] at hopenings
    rw [ofTokens_eq, hbody, hrun, ok_bind, hfits.finish_of_openings (by omega) hopenings]

/-- Tokens that nothing is told about have a postorder, and every stream with these tokens
is put into it. -/
theorem exists_postorder (hplaced : InPlace (body ts)) (hclosed : AllClosed (body ts)) :
    ∃ rpn, ∀ us, body us = body ts → ofTokens us = .ok rpn := by
  -- The yard has just the room that the tokens need: `us` may have fewer than `ts`.
  obtain ⟨y, hrun, hfits, hopenings⟩ :=
    exists_run hplaced (fun _ => kind_ne_endMark_of_mem_body) (Nat.le_refl _)
  rw [leavesOpen_eq_nil_iff.mpr hclosed] at hopenings
  obtain ⟨rpn, hfinish⟩ :=
    hfits.finish (Nat.le_refl _) (by rw [Yard.depth_eq_length, hopenings, List.length_nil])
  refine ⟨rpn, fun us hus => ?_⟩
  rw [← hus] at hrun
  have hlength := length_le_of_prefix_body (List.prefix_refl (body us))
  exact ofTokens_of_run (by omega) hrun hfinish

/-- Two groups inside one that nothing closes, and a stray token behind the end. -/
def gaping : List Token :=
  [⟨.openParen, "(", 0⟩, ⟨.openParen, "(", 1⟩, ⟨.literal, "a", 2⟩, ⟨.closeParen, ")", 3⟩,
    ⟨.openParen, "(", 4⟩, ⟨.closeParen, ")", 5⟩, ⟨.endMark, "", 6⟩, ⟨.epsilon, "", 7⟩]

/-- A group that is closed once too often, in front of a stray token. -/
def overclosed : List Token :=
  [⟨.openParen, "(", 0⟩, ⟨.star, "*", 1⟩, ⟨.closeParen, ")", 2⟩, ⟨.closeParen, ")", 3⟩,
    ⟨.epsilon, "", 4⟩]

end Rpn

end PatternAutomata
