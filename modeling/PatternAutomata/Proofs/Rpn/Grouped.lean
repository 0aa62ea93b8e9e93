import PatternAutomata.Proofs.Rpn.Steps

/-!
# A stream in a group

A group around a whole stream changes nothing about its postorder.  A yard that has
opened the group keeps the parenthesis below all that waits, and nothing takes it off
before its partner comes (`Yard.Wraps`).  Then the closing parenthesis moves to the
output what the end of the stream would have moved (`ofTokens_grouped`).

The tokens in the group stand further to the right, and so do the silent
concatenations between them.
-/

namespace PatternAutomata

/-- The token further to the right. -/
def Token.shift (n : Nat) (t : Token) : Token := { t with position := t.position + n }

theorem Token.kind_shift (n : Nat) (t : Token) : (t.shift n).kind = t.kind := rfl

/-! ## What is taken off the top -/

section OffTheTop

variable {α : Type} {f : α → α} {p q : α → Bool} {last : α}

/-- With a last element that is not taken, the same elements are taken. -/
theorem takeWhile_map_append (h : ∀ a, q (f a) = p a) (hlast : q last = false) (l : List α) :
    (l.map f ++ [last]).takeWhile q = (l.takeWhile p).map f := by
  induction l with
  | nil => simp [hlast]
  | cons a l ih =>
    rw [List.map_cons, List.cons_append, List.takeWhile_cons, List.takeWhile_cons, h, ih]
    split <;> rfl

/-- With a last element that is not taken, the same elements are left, and that one. -/
theorem dropWhile_map_append (h : ∀ a, q (f a) = p a) (hlast : q last = false) (l : List α) :
    (l.map f ++ [last]).dropWhile q = (l.dropWhile p).map f ++ [last] := by
  induction l with
  | nil => simp [hlast]
  | cons a l ih =>
    rw [List.map_cons, List.cons_append, List.dropWhile_cons, List.dropWhile_cons, h, ih]
    split <;> rfl

end OffTheTop

namespace Rpn

namespace Yard

variable {y y' next next' : Yard} {t opening closing : Token} {n position position' : Nat}
variable {us rpn rpn' : List Token}

/-! ## A parenthesis below all that waits -/

/-- A yard holds what another one holds, further to the right, and below it an open
parenthesis.  Both stand behind the end of an operand, or none of them. -/
structure Wraps (n : Nat) (opening : Token) (y y' : Yard) : Prop where
  /-- The outputs are the same. -/
  output_eq : y'.output.tokens = y.output.tokens.map (.shift n)
  /-- The parenthesis waits below what waits in the other one. -/
  waiting_eq : y'.waiting.tokens = y.waiting.tokens.map (.shift n) ++ [opening]
  /-- Silent concatenations come in front of the same tokens. -/
  ends_eq : y'.previous.any Kind.endsOperand = y.previous.any Kind.endsOperand

namespace Wraps

/-- A parenthesis has been opened in front of all tokens. -/
theorem ofRoom {room room' : Nat} (hopen : opening.kind = .openParen)
    (hstep : (Yard.ofRoom room').apply opening = .ok next) :
    Wraps n opening (Yard.ofRoom room) next := by
  obtain ⟨joined, hjoined, hrest⟩ := bind_eq_ok_iff.mp hstep
  obtain ⟨taken, htaken, hy⟩ := bind_eq_ok_iff.mp hrest
  cases hy
  rw [Yard.join, juxtaposes, Yard.ofRoom, Option.any_none, Bool.and_false,
    if_neg Bool.false_ne_true] at hjoined
  cases hjoined
  rw [Yard.accept, hopen] at htaken
  obtain ⟨hout, hwait⟩ := openGroup_eq_ok htaken
  refine ⟨?_, hwait, ?_⟩
  · change taken.output.tokens = []
    rw [hout]
    rfl
  · change Kind.endsOperand opening.kind = false
    rw [hopen]
    rfl

theorem juxtaposes_eq (h : Wraps n opening y y') (k : Kind) : y'.juxtaposes k = y.juxtaposes k := by
  rw [juxtaposes, juxtaposes, h.ends_eq]

theorem operand (h : Wraps n opening y y') (hstep : y.operand t = .ok next)
    (hstep' : y'.operand (t.shift n) = .ok next') : Wraps n opening next next' := by
  obtain ⟨output, hout, hy⟩ := bind_eq_ok_iff.mp hstep
  obtain ⟨output', hout', hy'⟩ := bind_eq_ok_iff.mp hstep'
  cases hy
  cases hy'
  refine ⟨?_, h.waiting_eq, h.ends_eq⟩
  rw [Buffer.push_eq_ok hout, Buffer.push_eq_ok hout', h.output_eq, List.map_cons]

theorem openGroup (h : Wraps n opening y y') (hstep : y.openGroup t = .ok next)
    (hstep' : y'.openGroup (t.shift n) = .ok next') : Wraps n opening next next' := by
  obtain ⟨waiting, hwait, hy⟩ := bind_eq_ok_iff.mp hstep
  obtain ⟨waiting', hwait', hy'⟩ := bind_eq_ok_iff.mp hstep'
  cases hy
  cases hy'
  refine ⟨h.output_eq, ?_, h.ends_eq⟩
  rw [Buffer.push_eq_ok hwait, Buffer.push_eq_ok hwait', h.waiting_eq, List.map_cons,
    List.cons_append]

/-- An operator takes the same tokens off, since the parenthesis does not bind. -/
theorem operator (h : Wraps n opening y y') (hopen : opening.kind = .openParen)
    (hkind : 1 ≤ t.kind.precedence) (hstep : y.operator t = .ok next)
    (hstep' : y'.operator (t.shift n) = .ok next') : Wraps n opening next next' := by
  obtain ⟨hout, hwait, hprevious⟩ := tokens_operator hstep
  obtain ⟨hout', hwait', hprevious'⟩ := tokens_operator hstep'
  have hbinds : ∀ s, binds (t.shift n) (s.shift n) = binds t s := fun _ => rfl
  have hopening : binds (t.shift n) opening = false := by
    rw [binds, hopen, Token.kind_shift, decide_eq_false_iff_not]
    exact Nat.not_le_of_lt hkind
  refine ⟨?_, ?_, by rw [hprevious, hprevious', h.ends_eq]⟩
  · rw [hout, hout', h.waiting_eq, h.output_eq, takeWhile_map_append hbinds hopening,
      List.map_append, List.map_reverse]
  · rw [hwait, hwait', h.waiting_eq, dropWhile_map_append hbinds hopening, List.map_cons,
      List.cons_append]

/-- A group inside closes with its own parenthesis. -/
theorem closeGroup (h : Wraps n opening y y') (hopen : opening.kind = .openParen)
    (hstep : y.closeGroup position = .ok next) (hstep' : y'.closeGroup position' = .ok next') :
    Wraps n opening next next' := by
  obtain ⟨hout, ⟨inner, hwait⟩, hprevious⟩ := tokens_closeGroup hstep
  obtain ⟨hout', ⟨inner', hwait'⟩, hprevious'⟩ := tokens_closeGroup hstep'
  have hgroup : ∀ s : Token, inGroup (s.shift n) = inGroup s := fun _ => rfl
  have hopening : inGroup opening = false := by
    rw [inGroup, hopen]
    rfl
  refine ⟨?_, ?_, by rw [hprevious, hprevious', h.ends_eq]⟩
  · rw [hout, hout', h.waiting_eq, h.output_eq, takeWhile_map_append hgroup hopening,
      List.map_append, List.map_reverse]
  · rw [h.waiting_eq, dropWhile_map_append hgroup hopening, hwait, List.map_cons,
      List.cons_append] at hwait'
    exact (List.cons.inj hwait').2.symm

theorem join (h : Wraps n opening y y') (hopen : opening.kind = .openParen)
    (hstep : y.join t = .ok next) (hstep' : y'.join (t.shift n) = .ok next') :
    Wraps n opening next next' := by
  unfold Yard.join at hstep hstep'
  rw [Token.kind_shift, h.juxtaposes_eq] at hstep'
  by_cases hjoint : y.juxtaposes t.kind = true
  · rw [if_pos hjoint] at hstep hstep'
    exact h.operator hopen (show 1 ≤ Kind.concat.precedence by decide) hstep hstep'
  · rw [if_neg hjoint] at hstep hstep'
    cases hstep
    cases hstep'
    exact h

theorem accept (h : Wraps n opening y y') (hopen : opening.kind = .openParen)
    (hstep : y.accept t = .ok next) (hstep' : y'.accept (t.shift n) = .ok next') :
    Wraps n opening next next' := by
  unfold Yard.accept at hstep hstep'
  rw [Token.kind_shift] at hstep'
  cases hkind : t.kind with
  | literal | escape =>
    rw [hkind] at hstep hstep'
    exact h.operand hstep hstep'
  | openParen =>
    rw [hkind] at hstep hstep'
    exact h.openGroup hstep hstep'
  | closeParen =>
    rw [hkind] at hstep hstep'
    exact h.closeGroup hopen hstep hstep'
  | star | plus | question | union | concat =>
    rw [hkind] at hstep hstep'
    exact h.operator hopen (by rw [hkind]; decide) hstep hstep'
  | epsilon | endMark =>
    rw [hkind] at hstep
    cases hstep

theorem apply (h : Wraps n opening y y') (hopen : opening.kind = .openParen)
    (hstep : y.apply t = .ok next) (hstep' : y'.apply (t.shift n) = .ok next') :
    Wraps n opening next next' := by
  obtain ⟨joined, hjoined, hrest⟩ := bind_eq_ok_iff.mp hstep
  obtain ⟨joined', hjoined', hrest'⟩ := bind_eq_ok_iff.mp hstep'
  obtain ⟨taken, htaken, hy⟩ := bind_eq_ok_iff.mp hrest
  obtain ⟨taken', htaken', hy'⟩ := bind_eq_ok_iff.mp hrest'
  cases hy
  cases hy'
  have hwraps := (h.join hopen hjoined hjoined').accept hopen htaken htaken'
  exact ⟨hwraps.output_eq, hwraps.waiting_eq, rfl⟩

/-- The parenthesis stays below all that waits while the same tokens are taken. -/
theorem foldlM (h : Wraps n opening y y') (hopen : opening.kind = .openParen)
    (hrun : us.foldlM Yard.apply y = .ok next)
    (hrun' : (us.map (.shift n)).foldlM Yard.apply y' = .ok next') : Wraps n opening next next' := by
  induction us generalizing y y' with
  | nil =>
    cases hrun
    cases hrun'
    exact h
  | cons t us ih =>
    obtain ⟨first, hstep, hrest⟩ := bind_eq_ok_iff.mp hrun
    obtain ⟨first', hstep', hrest'⟩ := bind_eq_ok_iff.mp hrun'
    exact ih (h.apply hopen hstep hstep') hrest hrest'

/-- The partner of the parenthesis ends the group as the end of the stream does. -/
theorem close (h : Wraps n opening y y') (hopen : opening.kind = .openParen)
    (hclose : closing.kind = .closeParen) (hend : y.finish = .ok rpn)
    (hstep : y'.apply closing = .ok next') (hend' : next'.finish = .ok rpn') :
    rpn' = rpn.map (.shift n) := by
  obtain ⟨hwaiting, rfl⟩ := finish_eq_ok hend
  obtain ⟨-, rfl⟩ := finish_eq_ok hend'
  obtain ⟨joined, hjoined, hrest⟩ := bind_eq_ok_iff.mp hstep
  obtain ⟨taken, htaken, hy⟩ := bind_eq_ok_iff.mp hrest
  cases hy
  have hnojoint : y'.juxtaposes closing.kind = false := by
    rw [hclose]
    rfl
  rw [Yard.join, hnojoint, if_neg Bool.false_ne_true] at hjoined
  cases hjoined
  rw [Yard.accept, hclose] at htaken
  obtain ⟨hout, ⟨inner, hwait⟩, -⟩ := tokens_closeGroup htaken
  have hgroup : ∀ s : Token, inGroup (s.shift n) = inGroup s := fun _ => rfl
  have hopening : inGroup opening = false := by
    rw [inGroup, hopen]
    rfl
  rw [h.waiting_eq, takeWhile_map_append hgroup hopening, List.takeWhile_eq_self_iff.mpr hwaiting,
    h.output_eq] at hout
  rw [h.waiting_eq, dropWhile_map_append hgroup hopening, List.dropWhile_eq_nil_iff.mpr hwaiting,
    List.map_nil, List.nil_append] at hwait
  change taken.output.tokens.reverse ++ taken.waiting.tokens = _
  rw [hout, ← (List.cons.inj hwait).2, List.append_nil, List.reverse_append, List.reverse_reverse,
    List.map_append, List.map_reverse]

end Wraps

end Yard

/-! ## The whole stream -/

variable {us rpn rpn' : List Token} {opening closing last last' : Token} {n : Nat}

/-- The postorder of a stream in a group is that of the stream, further to the right. -/
theorem ofTokens_grouped (hus : ∀ t ∈ us, t.kind ≠ .endMark) (hlast : last.kind = .endMark)
    (hlast' : last'.kind = .endMark) (hopen : opening.kind = .openParen)
    (hclose : closing.kind = .closeParen) (h : ofTokens (us ++ [last]) = .ok rpn)
    (h' : ofTokens (opening :: (us.map (.shift n) ++ [closing]) ++ [last']) = .ok rpn') :
    rpn' = rpn.map (.shift n) := by
  have hus' : ∀ t ∈ opening :: (us.map (Token.shift n) ++ [closing]), t.kind ≠ .endMark := by
    simp only [List.forall_mem_cons, List.forall_mem_append, List.forall_mem_map, hopen, hclose]
    exact ⟨nofun, hus, nofun, List.forall_mem_nil _⟩
  rw [ofTokens_eq, body_append hus hlast] at h
  rw [ofTokens_eq, body_append hus' hlast', List.foldlM_cons] at h'
  obtain ⟨y, hrun, hend⟩ := bind_eq_ok_iff.mp h
  obtain ⟨closed, hrun', hend'⟩ := bind_eq_ok_iff.mp h'
  obtain ⟨opened, hopened, hrest⟩ := bind_eq_ok_iff.mp hrun'
  rw [List.foldlM_append] at hrest
  obtain ⟨y', hinside, hclosed⟩ := bind_eq_ok_iff.mp hrest
  obtain ⟨z, hstep, hz⟩ := bind_eq_ok_iff.mp hclosed
  cases hz
  have hinner := (Yard.Wraps.ofRoom hopen hopened).foldlM hopen hrun hinside
  exact hinner.close hopen hclose hend hstep hend'

end Rpn

end PatternAutomata
