import PatternAutomata.Proofs.Rpn.Room

/-!
# What a yard does to its tokens

One lemma for each operation says what the operation has done if it came out well.
It says so of the two lists of tokens, and not of the room that is left.  Tokens go
to the output from the top of what waits, in the order in which they lie there, and
none of them is an open parenthesis.

The open parentheses that wait are the groups that are open (`Yard.openings`), and they
are counted (`Yard.depth`).
-/

namespace PatternAutomata.Rpn

/-! ## Buffers -/

namespace Buffer

variable {b b' : Buffer} {t : Token}

theorem push_eq_ok (h : b.push t = .ok b') : b'.tokens = t :: b.tokens := by
  unfold push at h
  split at h
  · cases h
  · cases h
    rfl

theorem pushAll_eq_ok {ts : List Token} (h : b.pushAll ts = .ok b') :
    b'.tokens = ts.reverse ++ b.tokens := by
  induction ts generalizing b with
  | nil =>
    cases h
    rfl
  | cons t ts ih =>
    obtain ⟨next, hnext, hrest⟩ := bind_eq_ok_iff.mp h
    rw [ih hrest, push_eq_ok hnext, List.reverse_cons, List.append_assoc]
    rfl

theorem pop?_eq_some (h : b.pop? = some (t, b')) : b.tokens = t :: b'.tokens := by
  unfold pop? at h
  split at h
  · cases h
  · next heq =>
    cases h
    exact heq

theorem pop?_eq_none (h : b.pop? = none) : b.tokens = [] := by
  unfold pop? at h
  split at h
  · next heq => exact heq
  · cases h

theorem top_append_below (p : Token → Bool) (b : Buffer) :
    b.top p ++ (b.below p).tokens = b.tokens := List.takeWhile_append_dropWhile

theorem of_mem_top {p : Token → Bool} (h : t ∈ b.top p) : p t = true := List.mem_takeWhile_imp h

end Buffer

/-! ## Yards -/

namespace Yard

variable {y y' : Yard} {t : Token}

theorem operand_eq_ok (h : y.operand t = .ok y') :
    y'.output.tokens = t :: y.output.tokens ∧ y'.waiting = y.waiting := by
  obtain ⟨output, hout, hy⟩ := bind_eq_ok_iff.mp h
  cases hy
  exact ⟨Buffer.push_eq_ok hout, rfl⟩

theorem openGroup_eq_ok (h : y.openGroup t = .ok y') :
    y'.output = y.output ∧ y'.waiting.tokens = t :: y.waiting.tokens := by
  obtain ⟨waiting, hwait, hy⟩ := bind_eq_ok_iff.mp h
  cases hy
  exact ⟨rfl, Buffer.push_eq_ok hwait⟩

/-- An operator waits in place of what it takes off. -/
theorem tokens_operator (h : y.operator t = .ok y') :
    y'.output.tokens = (y.waiting.tokens.takeWhile (binds t)).reverse ++ y.output.tokens ∧
      y'.waiting.tokens = t :: y.waiting.tokens.dropWhile (binds t) ∧
      y'.previous = y.previous := by
  obtain ⟨output, hout, hrest⟩ := bind_eq_ok_iff.mp h
  obtain ⟨waiting, hwait, hy⟩ := bind_eq_ok_iff.mp hrest
  cases hy
  exact ⟨Buffer.pushAll_eq_ok hout, Buffer.push_eq_ok hwait, rfl⟩

/-- An operator waits where others have gone to the output. -/
theorem operator_eq_ok (h : y.operator t = .ok y') (hkind : 1 ≤ t.kind.precedence) :
    ∃ moved below, y.waiting.tokens = moved ++ below ∧ (∀ s ∈ moved, inGroup s = true) ∧
      y'.output.tokens = moved.reverse ++ y.output.tokens ∧ y'.waiting.tokens = t :: below := by
  obtain ⟨hout, hwait, -⟩ := tokens_operator h
  refine ⟨_, _, List.takeWhile_append_dropWhile.symm, fun s hs => ?_, hout, hwait⟩
  have hbinds : binds t s = true := List.mem_takeWhile_imp hs
  exact inGroup_of_precedence (Nat.le_trans hkind (of_decide_eq_true hbinds))

/-- What stands right below the tokens of a group is what opened it. -/
theorem inGroup_of_dropWhile {waiting below : List Token}
    (h : waiting.dropWhile inGroup = t :: below) : inGroup t = false := by
  have hhead := List.head?_dropWhile_not inGroup waiting
  rw [h] at hhead
  simpa using hhead

/-- A group goes away with the token that opened it. -/
theorem tokens_closeGroup {position : Nat} (h : y.closeGroup position = .ok y') :
    y'.output.tokens = (y.waiting.tokens.takeWhile inGroup).reverse ++ y.output.tokens ∧
      (∃ opening, y.waiting.tokens.dropWhile inGroup = opening :: y'.waiting.tokens) ∧
      y'.previous = y.previous := by
  obtain ⟨output, hout, hrest⟩ := bind_eq_ok_iff.mp h
  cases hpop : (y.waiting.below inGroup).pop? with
  | none =>
    rw [hpop] at hrest
    cases hrest
  | some found =>
    obtain ⟨opening, waiting⟩ := found
    rw [hpop] at hrest
    cases hrest
    exact ⟨Buffer.pushAll_eq_ok hout, ⟨opening, Buffer.pop?_eq_some hpop⟩, rfl⟩

/-- The innermost group is closed. -/
theorem closeGroup_eq_ok {position : Nat} (h : y.closeGroup position = .ok y') :
    ∃ moved opening, y.waiting.tokens = moved ++ opening :: y'.waiting.tokens ∧
      (∀ s ∈ moved, inGroup s = true) ∧ inGroup opening = false ∧
      y'.output.tokens = moved.reverse ++ y.output.tokens := by
  obtain ⟨hout, ⟨opening, hbelow⟩, -⟩ := tokens_closeGroup h
  refine ⟨y.waiting.tokens.takeWhile inGroup, opening, ?_, fun s => List.mem_takeWhile_imp,
    inGroup_of_dropWhile hbelow, hout⟩
  rw [← hbelow, List.takeWhile_append_dropWhile]

/-- A stream ends well only where no group is open, and all that waits comes out. -/
theorem finish_eq_ok {rpn : List Token} (h : y.finish = .ok rpn) :
    (∀ s ∈ y.waiting.tokens, inGroup s = true) ∧
      rpn = y.output.tokens.reverse ++ y.waiting.tokens := by
  obtain ⟨output, hout, hrest⟩ := bind_eq_ok_iff.mp h
  cases hpop : (y.waiting.below inGroup).pop? with
  | some found =>
    rw [hpop] at hrest
    cases hrest
  | none =>
    rw [hpop] at hrest
    cases hrest
    have hall := Buffer.top_append_below inGroup y.waiting
    rw [Buffer.pop?_eq_none hpop, List.append_nil] at hall
    rw [Buffer.pushAll_eq_ok hout, List.reverse_append, List.reverse_reverse, hall]
    refine ⟨fun s hs => ?_, rfl⟩
    rw [← hall] at hs
    exact Buffer.of_mem_top hs

/-! ## Open groups -/

/-- The open parentheses that wait, innermost first. -/
def openings (y : Yard) : List Token := y.waiting.tokens.filter fun t => !inGroup t

theorem filter_inGroup {ts : List Token} (h : ∀ s ∈ ts, inGroup s = true) :
    ts.filter (fun s => !inGroup s) = [] := by
  rw [List.filter_eq_nil_iff]
  intro s hs
  simp [h s hs]

/-- The innermost open group lies right below the tokens that wait in it. -/
theorem exists_of_openings {opening : Token} {outer : List Token}
    (h : y.openings = opening :: outer) :
    ∃ inner below, y.waiting.tokens = inner ++ opening :: below ∧
      (∀ s ∈ inner, inGroup s = true) ∧ inGroup opening = false := by
  obtain ⟨inner, below, hsplit, hinner, hopening, -⟩ := List.filter_eq_cons_iff.mp h
  exact ⟨inner, below, hsplit, by simpa using hinner, by simpa using hopening⟩

theorem inGroup_of_openings_eq_nil (h : y.openings = []) :
    ∀ s ∈ y.waiting.tokens, inGroup s = true := by
  simpa [openings, List.filter_eq_nil_iff] using h

theorem openings_operand (h : y.operand t = .ok y') : y'.openings = y.openings := by
  rw [openings, openings, (operand_eq_ok h).2]

theorem openings_openGroup (h : y.openGroup t = .ok y') (hkind : t.kind = .openParen) :
    y'.openings = t :: y.openings := by
  rw [openings, openings, (openGroup_eq_ok h).2, List.filter_cons_of_pos (by simp [inGroup, hkind])]

theorem openings_operator (h : y.operator t = .ok y') (hkind : 1 ≤ t.kind.precedence) :
    y'.openings = y.openings := by
  obtain ⟨moved, below, hsplit, hmoved, -, hwait⟩ := operator_eq_ok h hkind
  have ht : inGroup t = true := inGroup_of_precedence hkind
  rw [openings, openings, hwait, hsplit, List.filter_append, filter_inGroup hmoved, List.nil_append,
    List.filter_cons_of_neg (by simp [ht])]

theorem openings_closeGroup {position : Nat} (h : y.closeGroup position = .ok y') :
    ∃ opening, y.openings = opening :: y'.openings := by
  obtain ⟨moved, opening, hsplit, hmoved, hopening, -⟩ := closeGroup_eq_ok h
  refine ⟨opening, ?_⟩
  rw [openings, openings, hsplit, List.filter_append, filter_inGroup hmoved, List.nil_append,
    List.filter_cons_of_pos (by simp [hopening])]

theorem openings_join (h : y.join t = .ok y') : y'.openings = y.openings := by
  unfold join at h
  split at h
  · exact openings_operator h (show 1 ≤ Kind.concat.precedence by decide)
  · cases h
    rfl

/-- How many groups are open. -/
def depth (y : Yard) : Nat := y.waiting.tokens.countP fun t => !inGroup t

theorem depth_eq_length (y : Yard) : y.depth = y.openings.length := List.countP_eq_length_filter

theorem depth_operand (h : y.operand t = .ok y') : y'.depth = y.depth := by
  rw [depth_eq_length, depth_eq_length, openings_operand h]

theorem depth_openGroup (h : y.openGroup t = .ok y') (hkind : t.kind = .openParen) :
    y'.depth = y.depth + 1 := by
  rw [depth_eq_length, depth_eq_length, openings_openGroup h hkind, List.length_cons]

theorem depth_operator (h : y.operator t = .ok y') (hkind : 1 ≤ t.kind.precedence) :
    y'.depth = y.depth := by
  rw [depth_eq_length, depth_eq_length, openings_operator h hkind]

theorem depth_closeGroup {position : Nat} (h : y.closeGroup position = .ok y') :
    y'.depth + 1 = y.depth := by
  obtain ⟨opening, hopening⟩ := openings_closeGroup h
  rw [depth_eq_length, depth_eq_length, hopening, List.length_cons]

theorem depth_join (h : y.join t = .ok y') : y'.depth = y.depth := by
  rw [depth_eq_length, depth_eq_length, openings_join h]

theorem depth_finish {rpn : List Token} (h : y.finish = .ok rpn) : y.depth = 0 := by
  rw [depth_eq_length, openings, filter_inGroup (finish_eq_ok h).1, List.length_nil]

end Yard

/-! ## The end of a stream -/

theorem kind_ne_endMark_of_mem_body {ts : List Token} {t : Token} (h : t ∈ body ts) :
    t.kind ≠ .endMark := by
  simpa using List.mem_takeWhile_imp h

/-- The tokens in front of the mark of the end are looked at. -/
theorem body_append {ts : List Token} {last : Token} (h : ∀ t ∈ ts, t.kind ≠ .endMark)
    (hlast : last.kind = .endMark) : body (ts ++ [last]) = ts := by
  rw [body, List.takeWhile_append_of_pos fun t ht => bne_iff_ne.mpr (h t ht),
    List.takeWhile_cons_of_neg (by simp [hlast]), List.append_nil]

end PatternAutomata.Rpn
