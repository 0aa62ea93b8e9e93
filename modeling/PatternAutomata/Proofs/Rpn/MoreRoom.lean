import PatternAutomata.Rpn

/-!
# More room

A yard only looks at its room to see whether a token fits.  So with more room it does the
same, and the room that it had too much is left over (`Yard.apply_widen`,
`Yard.finish_widen`).  A postorder that is found in little room is found in every larger
one (`ofTokens_of_run`).
-/

namespace PatternAutomata.Rpn

/-! ## Buffers -/

namespace Buffer

variable {b b' : Buffer} {t : Token} {k : Nat}

/-- The same tokens with more room. -/
def widen (k : Nat) (b : Buffer) : Buffer := { b with room := b.room + k }

theorem push_widen (h : b.push t = .ok b') : (b.widen k).push t = .ok (b'.widen k) := by
  obtain ⟨tokens, room⟩ := b
  cases room with
  | zero => cases h
  | succ room =>
    cases h
    rw [widen, Nat.add_right_comm]
    rfl

theorem pushAll_widen {ts : List Token} (h : b.pushAll ts = .ok b') :
    (b.widen k).pushAll ts = .ok (b'.widen k) := by
  induction ts generalizing b with
  | nil =>
    cases h
    rfl
  | cons t ts ih =>
    obtain ⟨next, hnext, hrest⟩ := bind_eq_ok_iff.mp h
    exact bind_eq_ok_iff.mpr ⟨next.widen k, push_widen hnext, ih hrest⟩

theorem below_widen (p : Token → Bool) (b : Buffer) (k : Nat) :
    (b.widen k).below p = (b.below p).widen k := by
  simp [below, widen, top, Nat.add_right_comm]

theorem pop?_widen (b : Buffer) (k : Nat) :
    (b.widen k).pop? = b.pop?.map fun found => (found.1, found.2.widen k) := by
  obtain ⟨tokens, room⟩ := b
  cases tokens with
  | nil => rfl
  | cons t ts => simp [pop?, widen, Nat.add_right_comm]

end Buffer

/-! ## Yards -/

namespace Yard

variable {y y' : Yard} {t : Token} {ts rpn : List Token} {k : Nat}

/-- The same yard with more room for both buffers. -/
def widen (k : Nat) (y : Yard) : Yard := ⟨y.output.widen k, y.waiting.widen k, y.previous⟩

theorem ofRoom_widen (room k : Nat) : (ofRoom room).widen k = ofRoom (room + k) := rfl

theorem operand_widen (h : y.operand t = .ok y') : (y.widen k).operand t = .ok (y'.widen k) := by
  obtain ⟨output, hout, hy⟩ := bind_eq_ok_iff.mp h
  cases hy
  exact bind_eq_ok_iff.mpr ⟨_, Buffer.push_widen hout, rfl⟩

theorem openGroup_widen (h : y.openGroup t = .ok y') :
    (y.widen k).openGroup t = .ok (y'.widen k) := by
  obtain ⟨waiting, hwait, hy⟩ := bind_eq_ok_iff.mp h
  cases hy
  exact bind_eq_ok_iff.mpr ⟨_, Buffer.push_widen hwait, rfl⟩

theorem operator_widen (h : y.operator t = .ok y') :
    (y.widen k).operator t = .ok (y'.widen k) := by
  obtain ⟨output, hout, hrest⟩ := bind_eq_ok_iff.mp h
  obtain ⟨waiting, hwait, hy⟩ := bind_eq_ok_iff.mp hrest
  cases hy
  refine bind_eq_ok_iff.mpr ⟨_, Buffer.pushAll_widen hout, bind_eq_ok_iff.mpr ⟨_, ?_, rfl⟩⟩
  rw [widen, Buffer.below_widen]
  exact Buffer.push_widen hwait

theorem closeGroup_widen {position : Nat} (h : y.closeGroup position = .ok y') :
    (y.widen k).closeGroup position = .ok (y'.widen k) := by
  obtain ⟨output, hout, hrest⟩ := bind_eq_ok_iff.mp h
  refine bind_eq_ok_iff.mpr ⟨_, Buffer.pushAll_widen hout, ?_⟩
  rw [widen, Buffer.below_widen, Buffer.pop?_widen]
  cases hpop : (y.waiting.below inGroup).pop? with
  | none =>
    rw [hpop] at hrest
    cases hrest
  | some found =>
    rw [hpop] at hrest
    cases hrest
    rfl

theorem join_widen (h : y.join t = .ok y') : (y.widen k).join t = .ok (y'.widen k) := by
  unfold join at h ⊢
  by_cases hjoin : y.juxtaposes t.kind = true
  · rw [if_pos hjoin] at h
    rw [if_pos (show (y.widen k).juxtaposes t.kind = true from hjoin)]
    exact operator_widen h
  · rw [if_neg hjoin] at h
    rw [if_neg (show ¬(y.widen k).juxtaposes t.kind = true from hjoin)]
    cases h
    rfl

theorem accept_widen (h : y.accept t = .ok y') : (y.widen k).accept t = .ok (y'.widen k) := by
  unfold accept at h ⊢
  cases hkind : t.kind with
  | literal | escape =>
    rw [hkind] at h
    exact operand_widen h
  | openParen =>
    rw [hkind] at h
    exact openGroup_widen h
  | closeParen =>
    rw [hkind] at h
    exact closeGroup_widen h
  | star | plus | question | union | concat =>
    rw [hkind] at h
    exact operator_widen h
  | epsilon | endMark =>
    rw [hkind] at h
    cases h

theorem apply_widen (h : y.apply t = .ok y') : (y.widen k).apply t = .ok (y'.widen k) := by
  obtain ⟨joined, hjoined, hrest⟩ := bind_eq_ok_iff.mp h
  obtain ⟨taken, htaken, hy⟩ := bind_eq_ok_iff.mp hrest
  cases hy
  exact bind_eq_ok_iff.mpr ⟨_, join_widen hjoined,
    bind_eq_ok_iff.mpr ⟨_, accept_widen htaken, rfl⟩⟩

theorem foldlM_widen (h : ts.foldlM apply y = .ok y') :
    ts.foldlM apply (y.widen k) = .ok (y'.widen k) := by
  induction ts generalizing y with
  | nil =>
    cases h
    rfl
  | cons t ts ih =>
    obtain ⟨next, hnext, hrest⟩ := bind_eq_ok_iff.mp h
    exact bind_eq_ok_iff.mpr ⟨_, apply_widen hnext, ih hrest⟩

theorem finish_widen (h : y.finish = .ok rpn) : (y.widen k).finish = .ok rpn := by
  obtain ⟨output, hout, hrest⟩ := bind_eq_ok_iff.mp h
  refine bind_eq_ok_iff.mpr ⟨_, Buffer.pushAll_widen hout, ?_⟩
  rw [widen, Buffer.below_widen, Buffer.pop?_widen]
  cases hpop : (y.waiting.below inGroup).pop? with
  | none =>
    rw [hpop] at hrest
    exact hrest
  | some found =>
    rw [hpop] at hrest
    cases hrest

end Yard

/-- A postorder that is found in some room is found in more room. -/
theorem ofTokens_of_run {ts rpn : List Token} {room : Nat} {y : Yard} (hroom : room ≤ 2 * ts.length)
    (hrun : (body ts).foldlM Yard.apply (Yard.ofRoom room) = .ok y) (hfinish : y.finish = .ok rpn) :
    ofTokens ts = .ok rpn := by
  obtain ⟨k, hk⟩ := Nat.exists_eq_add_of_le hroom
  rw [ofTokens_eq, hk, ← Yard.ofRoom_widen]
  exact bind_eq_ok_iff.mpr ⟨_, Yard.foldlM_widen hrun, Yard.finish_widen hfinish⟩

end PatternAutomata.Rpn
