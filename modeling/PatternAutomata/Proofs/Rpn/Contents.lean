import PatternAutomata.Proofs.Rpn.Steps

/-!
# What a postorder is filled with

A yard only moves tokens.  What it holds, open parentheses apart, comes out in the
end, and nothing else does.  So a postorder can be told from its stream up to the
order of its tokens: it holds the tokens that postorder has a place for, and a
concatenation for every two neighbours that are joined without a sign (`filled`).

The steps say what a yard holds by permutations (`Yard.contents`).  The result is
`perm_filled`.
-/

namespace PatternAutomata.Rpn

/-! ## The tokens of a stream -/

/-- The silent concatenation in front of a token, if there is one behind a token of the
kind `previous`. -/
def joint (previous : Option Kind) (t : Token) : List Token :=
  if t.kind.startsOperand && previous.any Kind.endsOperand then
    [Token.bare .concat t.position] else []

/-- What a token brings into the postorder, if it stands behind a token of the kind
`previous`. -/
def brought (previous : Option Kind) (t : Token) : List Token :=
  joint previous t ++ if t.kind.isStray then [] else [t]

/-- What the tokens of a stream bring into the postorder, if the stream stands behind
a token of the kind `previous`. -/
def filled (previous : Option Kind) : List Token → List Token
  | [] => []
  | t :: ts => brought previous t ++ filled (some t.kind) ts

variable {previous : Option Kind} {t u : Token} {ts : List Token}

theorem mem_joint (h : u ∈ joint previous t) :
    t.kind.startsOperand = true ∧ u = Token.bare .concat t.position := by
  unfold joint at h
  split at h
  · next hjoin => exact ⟨(Bool.and_eq_true_iff.mp hjoin).1, List.mem_singleton.mp h⟩
  · cases h

/-- A token that postorder has a place for is brought itself. -/
theorem brought_ne_nil (h : t.kind.isStray = false) : brought previous t ≠ [] := by
  simp [brought, h]

/-- A parenthesis that starts no right operand brings nothing. -/
theorem brought_eq_nil (hstray : t.kind.isStray = true)
    (hjoin : (t.kind.startsOperand && previous.any Kind.endsOperand) = false) :
    brought previous t = [] := by
  simp [brought, joint, hstray, hjoin]

/-- What a stream brings is its own, or a silent concatenation in front of one of its
tokens. -/
theorem mem_filled (h : u ∈ filled previous ts) :
    u ∈ ts ∧ u.kind.isStray = false ∨
      ∃ t ∈ ts, t.kind.startsOperand = true ∧ u = Token.bare .concat t.position := by
  induction ts generalizing previous with
  | nil => cases h
  | cons t ts ih =>
    rw [filled, List.mem_append, brought, List.mem_append] at h
    rcases h with (h | h) | h
    · exact .inr ⟨t, List.mem_cons_self, mem_joint h⟩
    · split at h
      · cases h
      · next hstray =>
        rw [List.mem_singleton.mp h]
        exact .inl ⟨List.mem_cons_self, Bool.eq_false_iff.mpr hstray⟩
    · rcases ih h with ⟨hmem, hstray⟩ | ⟨v, hv, hjoined⟩
      · exact .inl ⟨List.mem_cons_of_mem t hmem, hstray⟩
      · exact .inr ⟨v, List.mem_cons_of_mem t hv, hjoined⟩

/-! ## The tokens of a yard -/

namespace Yard

variable {y y' : Yard} {rpn : List Token}

/-- The tokens of a yard that will come out of it. -/
def contents (y : Yard) : List Token := y.output.tokens ++ y.waiting.tokens.filter inGroup

theorem contents_operand (h : y.operand t = .ok y') : y'.contents = t :: y.contents := by
  obtain ⟨hout, hwait⟩ := operand_eq_ok h
  rw [contents, contents, hout, hwait, List.cons_append]

theorem contents_openGroup (h : y.openGroup t = .ok y') (hkind : t.kind = .openParen) :
    y'.contents = y.contents := by
  obtain ⟨hout, hwait⟩ := openGroup_eq_ok h
  rw [contents, contents, hout, hwait, List.filter_cons_of_neg (by simp [inGroup, hkind])]

theorem contents_operator (h : y.operator t = .ok y') (hkind : 1 ≤ t.kind.precedence) :
    y'.contents.Perm (t :: y.contents) := by
  obtain ⟨moved, below, hsplit, hmoved, hout, hwait⟩ := operator_eq_ok h hkind
  rw [contents, contents, hout, hwait, hsplit, List.filter_append, List.filter_eq_self.mpr hmoved,
    List.filter_cons_of_pos (inGroup_of_precedence hkind)]
  refine List.perm_middle.trans (.cons t ?_)
  rw [List.append_assoc]
  exact ((List.reverse_perm moved).append_right _).trans (List.perm_append_comm_assoc ..)

theorem contents_closeGroup {position : Nat} (h : y.closeGroup position = .ok y') :
    y'.contents.Perm y.contents := by
  obtain ⟨moved, opening, hsplit, hmoved, hopening, hout⟩ := closeGroup_eq_ok h
  rw [contents, contents, hout, hsplit, List.filter_append, List.filter_eq_self.mpr hmoved,
    List.filter_cons_of_neg (Bool.eq_false_iff.mp hopening), List.append_assoc]
  exact ((List.reverse_perm moved).append_right _).trans (List.perm_append_comm_assoc ..)

/-- In front of a token, a silent concatenation is brought if the token is joined. -/
theorem contents_join {joined : Yard} (h : y.join t = .ok joined) :
    joined.contents.Perm (joint y.previous t ++ y.contents) := by
  rw [join, juxtaposes] at h
  rw [joint]
  split at h
  · next hjoin =>
    rw [if_pos hjoin]
    exact contents_operator h (show 1 ≤ Kind.concat.precedence by decide)
  · next hjoin =>
    rw [if_neg hjoin]
    cases h
    exact .refl _

theorem contents_accept (h : y.accept t = .ok y') :
    y'.contents.Perm ((if t.kind.isStray then [] else [t]) ++ y.contents) := by
  unfold accept at h
  cases hkind : t.kind with
  | literal | escape =>
    rw [hkind] at h
    exact .of_eq (contents_operand h)
  | openParen =>
    rw [hkind] at h
    exact .of_eq (contents_openGroup h hkind)
  | closeParen =>
    rw [hkind] at h
    exact contents_closeGroup h
  | star | plus | question | union | concat =>
    rw [hkind] at h
    exact contents_operator h (by rw [hkind]; decide)
  | epsilon | endMark =>
    rw [hkind] at h
    cases h

/-- A yard holds what it held before and what the token brings. -/
theorem contents_apply (h : y.apply t = .ok y') :
    y'.contents.Perm (brought y.previous t ++ y.contents) ∧ y'.previous = some t.kind := by
  obtain ⟨joined, hjoined, hrest⟩ := bind_eq_ok_iff.mp h
  obtain ⟨taken, htaken, hy⟩ := bind_eq_ok_iff.mp hrest
  cases hy
  refine ⟨?_, rfl⟩
  change taken.contents.Perm _
  rw [brought, List.append_assoc]
  refine (contents_accept htaken).trans (((contents_join hjoined).append_left _).trans ?_)
  exact List.perm_append_comm_assoc ..

/-- A yard holds what it held before and what the tokens bring. -/
theorem contents_foldlM (h : ts.foldlM apply y = .ok y') :
    y'.contents.Perm (filled y.previous ts ++ y.contents) := by
  induction ts generalizing y with
  | nil =>
    cases h
    exact .refl _
  | cons t ts ih =>
    obtain ⟨next, hnext, hrest⟩ := bind_eq_ok_iff.mp h
    obtain ⟨hcontents, hprevious⟩ := contents_apply hnext
    have hall := ih hrest
    rw [hprevious] at hall
    rw [filled, List.append_assoc]
    refine (hall.trans (hcontents.append_left _)).trans ?_
    exact List.perm_append_comm_assoc ..

/-- What a yard holds comes out of it. -/
theorem contents_finish (h : y.finish = .ok rpn) : rpn.Perm y.contents := by
  obtain ⟨hwaiting, rfl⟩ := finish_eq_ok h
  rw [contents, List.filter_eq_self.mpr hwaiting]
  exact (List.reverse_perm _).append_right _

end Yard

variable {rpn : List Token}

/-- A postorder holds what the tokens of its stream bring, in some order. -/
theorem perm_filled (h : ofTokens ts = .ok rpn) : rpn.Perm (filled none (body ts)) := by
  rw [ofTokens_eq] at h
  obtain ⟨y, hrun, hfinish⟩ := bind_eq_ok_iff.mp h
  have hcontents := Yard.contents_foldlM hrun
  rw [show (Yard.ofRoom (2 * ts.length)).contents = [] from rfl, List.append_nil] at hcontents
  exact (Yard.contents_finish hfinish).trans hcontents

/-- A token of a postorder comes from the stream, or it is a silent concatenation and
stands where an operand of the stream starts. -/
theorem mem_ofTokens (h : ofTokens ts = .ok rpn) (ht : t ∈ rpn) :
    t ∈ body ts ∧ t.kind.isStray = false ∨
      ∃ u ∈ body ts, u.kind.startsOperand = true ∧ t = Token.bare .concat u.position :=
  mem_filled ((perm_filled h).mem_iff.mp ht)

/-- Every token of a postorder has a place there. -/
theorem isStray_of_mem_ofTokens (h : ofTokens ts = .ok rpn) (ht : t ∈ rpn) :
    t.kind.isStray = false := by
  rcases mem_ofTokens h ht with ⟨-, hstray⟩ | ⟨u, -, -, rfl⟩
  · exact hstray
  · rfl

end PatternAutomata.Rpn
