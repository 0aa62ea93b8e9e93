import Mathlib.Data.List.TakeWhile
import PatternAutomata.Rpn

/-!
# Yards with room

A buffer in use is known by the tokens it holds and by its capacity, which does
not change.  As long as all tokens of a yard together are fewer than the capacity
of each of its buffers, no operation of the yard runs out of room, and what it
does can be read off the two lists of tokens.

An operator takes off the waiting tokens that bind at least as tightly
(`Yard.operator_holding`).  A closing parenthesis and the end take off all that
waits in the innermost group (`Yard.flush_holding`).  A closing parenthesis must find
a group below that, and the end must find none.
-/

namespace PatternAutomata.Rpn

/-! ## Buffers -/

namespace Buffer

/-- The buffer of a capacity that holds these tokens. -/
def holding (capacity : Nat) (tokens : List Token) : Buffer := ⟨tokens, capacity - tokens.length⟩

@[simp] theorem tokens_holding (capacity : Nat) (tokens : List Token) :
    (holding capacity tokens).tokens = tokens := rfl

theorem push_holding {capacity : Nat} {tokens : List Token} (t : Token)
    (h : tokens.length < capacity) :
    (holding capacity tokens).push t = .ok (holding capacity (t :: tokens)) := by
  have hroom : capacity - tokens.length = (capacity - (tokens.length + 1)) + 1 := by omega
  simp only [holding, push, List.length_cons]
  rw [hroom]

theorem pushAll_holding {capacity : Nat} {tokens : List Token} (ts : List Token)
    (h : tokens.length + ts.length ≤ capacity) :
    (holding capacity tokens).pushAll ts = .ok (holding capacity (ts.reverse ++ tokens)) := by
  induction ts generalizing tokens with
  | nil => rfl
  | cons t ts ih =>
    have hlen : (t :: tokens).length + ts.length ≤ capacity := by
      simp only [List.length_cons] at h ⊢
      omega
    have hpush : (holding capacity tokens).push t = .ok (holding capacity (t :: tokens)) :=
      push_holding t (by simp only [List.length_cons] at h; omega)
    have hrest := ih hlen
    rw [pushAll] at hrest ⊢
    rw [List.foldlM_cons, hpush, ok_bind, hrest]
    simp

/-- What is taken off the top makes room again. -/
theorem below_holding {capacity : Nat} {tokens : List Token} (p : Token → Bool)
    (h : tokens.length ≤ capacity) :
    (holding capacity tokens).below p = holding capacity (tokens.dropWhile p) := by
  have hlen := congrArg List.length (List.takeWhile_append_dropWhile (p := p) (l := tokens))
  rw [List.length_append] at hlen
  simp only [below, top, holding, Buffer.mk.injEq, true_and]
  omega

theorem pop?_holding {capacity : Nat} {t : Token} {tokens : List Token}
    (h : (t :: tokens).length ≤ capacity) :
    (holding capacity (t :: tokens)).pop? = some (t, holding capacity tokens) := by
  simp only [holding, pop?, List.length_cons, Option.some.injEq, Prod.mk.injEq, Buffer.mk.injEq,
    true_and] at h ⊢
  omega

end Buffer

/-! ## Yards -/

namespace Yard

open Buffer (push_holding pushAll_holding below_holding pop?_holding)

/-- The yard whose buffers have a capacity and hold these tokens. -/
def holding (capacity : Nat) (output waiting : List Token) (previous : Option Kind) : Yard :=
  ⟨.holding capacity output, .holding capacity waiting, previous⟩

theorem ofRoom_eq_holding (room : Nat) : ofRoom room = holding room [] [] none := rfl

theorem juxtaposes_eq_false_of_previous {y : Yard} (h : y.previous.any Kind.endsOperand = false)
    (k : Kind) : y.juxtaposes k = false := by
  rw [juxtaposes, h, Bool.and_false]

theorem juxtaposes_eq_false_of_kind {k : Kind} (h : k.startsOperand = false) (y : Yard) :
    y.juxtaposes k = false := by
  rw [juxtaposes, h, Bool.false_and]

/-- Whether a waiting token goes to the output in front of an operator. -/
def binds (t top : Token) : Bool := t.kind.precedence ≤ top.kind.precedence

variable {capacity : Nat} {output waiting : List Token} {previous : Option Kind}

theorem operand_holding (t : Token) (h : output.length < capacity) :
    (holding capacity output waiting previous).operand t =
      .ok (holding capacity (t :: output) waiting previous) := by
  simp only [operand, holding, push_holding t h, ok_bind]
  rfl

theorem openGroup_holding (t : Token) (h : waiting.length < capacity) :
    (holding capacity output waiting previous).openGroup t =
      .ok (holding capacity output (t :: waiting) previous) := by
  simp only [openGroup, holding, push_holding t h, ok_bind]
  rfl

theorem operator_holding (t : Token) (h : output.length + waiting.length < capacity) :
    (holding capacity output waiting previous).operator t =
      .ok (holding capacity ((waiting.takeWhile (binds t)).reverse ++ output)
        (t :: waiting.dropWhile (binds t)) previous) := by
  have htop : (waiting.takeWhile (binds t)).length ≤ waiting.length :=
    (List.takeWhile_prefix (binds t)).length_le
  have hbelow : (waiting.dropWhile (binds t)).length ≤ waiting.length :=
    (List.dropWhile_suffix (binds t)).length_le
  have hout := pushAll_holding (waiting.takeWhile (binds t))
    (show output.length + _ ≤ capacity by omega)
  have hwait := below_holding (binds t) (show waiting.length ≤ capacity by omega)
  have hpush := push_holding t (show (waiting.dropWhile (binds t)).length < capacity by omega)
  have hbinds : (fun top : Token => decide (t.kind.precedence ≤ top.kind.precedence)) = binds t :=
    rfl
  simp only [operator, holding, Buffer.top, Buffer.tokens_holding, hbinds, hout, hwait, ok_bind,
    hpush]
  rfl

/-- All that waits in the innermost group goes to the output, and what lies below stays. -/
theorem flush_holding (inner below : List Token) (hinner : ∀ t ∈ inner, inGroup t = true)
    (hbelow : ∀ t ∈ below.head?, inGroup t = false)
    (h : output.length + (inner ++ below).length ≤ capacity) :
    (Buffer.holding capacity output).pushAll
        ((Buffer.holding capacity (inner ++ below)).top inGroup) =
          .ok (.holding capacity (inner.reverse ++ output)) ∧
      (Buffer.holding capacity (inner ++ below)).below inGroup = .holding capacity below := by
  have htake : below.takeWhile inGroup = [] ∧ below.dropWhile inGroup = below := by
    cases below with
    | nil => exact ⟨rfl, rfl⟩
    | cons opening below =>
      have hopening : inGroup opening = false := hbelow opening rfl
      exact ⟨List.takeWhile_cons_of_neg (by simp [hopening]),
        List.dropWhile_cons_of_neg (by simp [hopening])⟩
  have htop : (inner ++ below).takeWhile inGroup = inner := by
    rw [List.takeWhile_append_of_pos hinner, htake.1, List.append_nil]
  have hdrop : (inner ++ below).dropWhile inGroup = below := by
    rw [List.dropWhile_append_of_pos hinner, htake.2]
  rw [List.length_append] at h
  rw [Buffer.top, Buffer.tokens_holding, htop, below_holding inGroup
    (show (inner ++ below).length ≤ capacity by rw [List.length_append]; omega), hdrop]
  exact ⟨pushAll_holding inner (show output.length + inner.length ≤ capacity by omega), rfl⟩

/-- The innermost group is closed: what waits in it goes to the output, and the
parenthesis that opened it goes away. -/
theorem closeGroup_holding {inner below : List Token} {opening : Token}
    (previous : Option Kind) (position : Nat)
    (hinner : ∀ t ∈ inner, inGroup t = true) (hopening : inGroup opening = false)
    (h : output.length + (inner ++ opening :: below).length ≤ capacity) :
    (holding capacity output (inner ++ opening :: below) previous).closeGroup position =
      .ok (holding capacity (inner.reverse ++ output) below previous) := by
  have hhead : ∀ t ∈ (opening :: below).head?, inGroup t = false := by simpa using hopening
  obtain ⟨hout, hwait⟩ := flush_holding inner (opening :: below) hinner hhead h
  rw [List.length_append] at h
  have hpop := pop?_holding (show (opening :: below).length ≤ capacity by omega)
  simp only [closeGroup, holding, hout, ok_bind, hwait, hpop]
  rfl

/-- Where no group is open, none can be closed. -/
theorem closeGroup_holding_outermost (previous : Option Kind) (position : Nat)
    (hwaiting : ∀ t ∈ waiting, inGroup t = true) (h : output.length + waiting.length ≤ capacity) :
    (holding capacity output waiting previous).closeGroup position =
      .error (ParseCause.unmatchedClose.fault position) := by
  obtain ⟨hout, hwait⟩ := flush_holding waiting [] hwaiting (by simp) (by simpa using h)
  rw [List.append_nil] at hout hwait
  simp only [closeGroup, holding, hout, ok_bind, hwait]
  rfl

/-- Where no group is open, all that waits goes to the output in the end. -/
theorem finish_holding (hwaiting : ∀ t ∈ waiting, inGroup t = true)
    (h : output.length + waiting.length ≤ capacity) :
    (holding capacity output waiting previous).finish = .ok (output.reverse ++ waiting) := by
  obtain ⟨hout, hwait⟩ := flush_holding waiting [] hwaiting (by simp) (by simpa using h)
  rw [List.append_nil] at hout hwait
  simp only [finish, holding, hout, ok_bind, hwait]
  change Except.ok (waiting.reverse ++ output).reverse = _
  rw [List.reverse_append, List.reverse_reverse]

/-- Where a group is open, a stream may not end, and the innermost group is told. -/
theorem finish_holding_opening {inner below : List Token} {opening : Token}
    (hinner : ∀ t ∈ inner, inGroup t = true) (hopening : inGroup opening = false)
    (h : output.length + (inner ++ opening :: below).length ≤ capacity) :
    (holding capacity output (inner ++ opening :: below) previous).finish =
      .error (ParseCause.unmatchedOpen.fault opening.position) := by
  have hhead : ∀ t ∈ (opening :: below).head?, inGroup t = false := by simpa using hopening
  obtain ⟨hout, hwait⟩ := flush_holding inner (opening :: below) hinner hhead h
  simp only [finish, holding, hout, ok_bind, hwait]
  rfl

end Yard

/-- A stream asks for room for all its tokens, and only those in front of the mark of the
end are looked at. -/
theorem length_body_le (ts : List Token) : (body ts).length ≤ ts.length :=
  (List.takeWhile_prefix _).length_le

end PatternAutomata.Rpn
