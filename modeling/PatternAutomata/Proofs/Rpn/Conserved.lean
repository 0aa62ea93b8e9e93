import PatternAutomata.Proofs.Rpn.Nesting

/-!
# What a reordering conserves

Whatever the stream, a reordering that comes out well loses no token but the parentheses,
doubles none, and invents nothing but the silent concatenations (`silent`).  The operands
keep their order: none of them ever waits (`Yard.InOrder`).  Operators change places, so of
them it is only said how often each of them comes out.

The silent concatenations are also what a recorded reordering tells about.
-/

namespace PatternAutomata

/-! ## Silent concatenations -/

/-- Whether two neighbours are joined without a sign. -/
def Token.joins (left right : Token) : Bool :=
  left.kind ∈ [Kind.literal, .escape, .star, .plus, .question, .closeParen] &&
    right.kind ∈ [Kind.literal, .escape, .openParen]

/-- The silent concatenations between tokens, from the first to the last one.  Each stands
where its right neighbour stands. -/
def silent (ts : List Token) : List Token :=
  ((ts.zip ts.tail).filter fun pair => pair.1.joins pair.2).map fun pair =>
    Token.bare .concat pair.2.position

theorem Token.joins_eq (left right : Token) :
    left.joins right = (right.kind.startsOperand && left.kind.endsOperand) := by
  have hends : decide (left.kind ∈ [Kind.literal, .escape, .star, .plus, .question, .closeParen]) =
      left.kind.endsOperand := by
    cases left.kind <;> rfl
  have hstarts : decide (right.kind ∈ [Kind.literal, .escape, .openParen]) =
      right.kind.startsOperand := by
    cases right.kind <;> rfl
  rw [joins, hends, hstarts, Bool.and_comm]

/-- What binds is no operand. -/
theorem Kind.isOperand_of_precedence {k : Kind} (h : 1 ≤ k.precedence) : k.isOperand = false := by
  cases k with
  | literal | escape => exact absurd h (by decide)
  | _ => rfl

namespace Rpn

/-- The silent concatenations of tokens behind a token of the kind `previous`. -/
def joints (previous : Option Kind) : List Token → List Token
  | [] => []
  | t :: ts => joint previous t ++ joints (some t.kind) ts

variable {previous : Option Kind} {t : Token} {ts us rpn : List Token}

theorem joints_some (t : Token) (ts : List Token) : joints (some t.kind) ts = silent (t :: ts) := by
  induction ts generalizing t with
  | nil => rfl
  | cons u ts ih =>
    rw [joints, ih, joint, Option.any_some, ← Token.joins_eq]
    simp only [silent, List.tail_cons, List.zip_cons_cons, List.filter_cons]
    split
    · rfl
    · rfl

theorem joints_none (ts : List Token) : joints none ts = silent ts := by
  cases ts with
  | nil => rfl
  | cons t ts =>
    rw [joints, joint, Option.any_none, Bool.and_false, if_neg Bool.false_ne_true, joints_some]
    rfl

/-- What tokens bring is what postorder has a place for, and the silent concatenations. -/
theorem filled_perm (previous : Option Kind) (ts : List Token) :
    (filled previous ts).Perm (ts.filter (fun t => !t.kind.isStray) ++ joints previous ts) := by
  induction ts generalizing previous with
  | nil => exact .refl _
  | cons t ts ih =>
    have hown : (t :: ts).filter (fun t => !t.kind.isStray) =
        (if t.kind.isStray then [] else [t]) ++ ts.filter fun t => !t.kind.isStray := by
      rw [List.filter_cons]
      cases t.kind.isStray <;> rfl
    rw [filled, joints, brought, hown, List.append_assoc]
    refine (((ih (some t.kind)).append_left _).append_left _).trans ?_
    rw [← List.append_assoc (if t.kind.isStray then [] else [t])]
    exact List.perm_append_comm_assoc ..

/-! ## The order of the operands -/

namespace Yard

variable {y y' : Yard}

/-- The operands of the tokens are in the output, in their order. -/
structure InOrder (ts : List Token) (y : Yard) : Prop where
  output : y.output.tokens.reverse.filter (·.kind.isOperand) = ts.filter (·.kind.isOperand)
  /-- No operand waits. -/
  waiting : ∀ s ∈ y.waiting.tokens, s.kind.isOperand = false

theorem filter_isOperand {moved : List Token} (h : ∀ s ∈ moved, s.kind.isOperand = false) :
    moved.filter (·.kind.isOperand) = [] := by
  rw [List.filter_eq_nil_iff]
  intro s hs
  rw [h s hs]
  exact Bool.false_ne_true

namespace InOrder

theorem ofRoom (room : Nat) : InOrder [] (Yard.ofRoom room) := ⟨rfl, nofun⟩

theorem operand (h : InOrder ts y) (ht : y.operand t = .ok y') : InOrder (ts ++ [t]) y' := by
  obtain ⟨hout, hwait⟩ := operand_eq_ok ht
  constructor
  · rw [hout, List.reverse_cons, List.filter_append, h.output, List.filter_append]
  · rw [hwait]
    exact h.waiting

theorem openGroup (h : InOrder ts y) (ht : y.openGroup t = .ok y')
    (hkind : t.kind.isOperand = false) : InOrder ts y' := by
  obtain ⟨hout, hwait⟩ := openGroup_eq_ok ht
  constructor
  · rw [hout]
    exact h.output
  · rw [hwait]
    exact List.forall_mem_cons.mpr ⟨hkind, h.waiting⟩

/-- Tokens that go from the top of what waits to the output are no operands. -/
theorem move {moved below : List Token} (h : InOrder ts y)
    (hsplit : y.waiting.tokens = moved ++ below)
    (hout : y'.output.tokens = moved.reverse ++ y.output.tokens)
    (hwait : ∀ s ∈ y'.waiting.tokens, s.kind.isOperand = false ∨ s ∈ below) : InOrder ts y' := by
  have hwaiting := h.waiting
  rw [hsplit, List.forall_mem_append] at hwaiting
  constructor
  · rw [hout, List.reverse_append, List.reverse_reverse, List.filter_append, h.output,
      filter_isOperand hwaiting.1, List.append_nil]
  · intro s hs
    exact (hwait s hs).elim id (hwaiting.2 s)

theorem operator (h : InOrder ts y) (ht : y.operator t = .ok y') (hkind : 1 ≤ t.kind.precedence) :
    InOrder ts y' := by
  obtain ⟨moved, below, hsplit, -, hout, hwait⟩ := operator_eq_ok ht hkind
  refine h.move hsplit hout fun s hs => ?_
  rw [hwait, List.mem_cons] at hs
  rcases hs with rfl | hs
  · exact .inl (Kind.isOperand_of_precedence hkind)
  · exact .inr hs

theorem closeGroup {position : Nat} (h : InOrder ts y) (ht : y.closeGroup position = .ok y') :
    InOrder ts y' := by
  obtain ⟨moved, opening, hsplit, -, -, hout⟩ := closeGroup_eq_ok ht
  exact h.move hsplit hout fun s hs => .inr (List.mem_cons_of_mem opening hs)

theorem join (h : InOrder ts y) (ht : y.join t = .ok y') : InOrder ts y' := by
  unfold Yard.join at ht
  split at ht
  · exact h.operator ht (show 1 ≤ Kind.concat.precedence by decide)
  · cases ht
    exact h

/-- A token that is no operand does not count. -/
theorem append_of_not_isOperand (h : InOrder ts y) (hkind : t.kind.isOperand = false) :
    InOrder (ts ++ [t]) y := by
  refine ⟨?_, h.waiting⟩
  have hlast : [t].filter (·.kind.isOperand) = [] := filter_isOperand (by simpa using hkind)
  rw [h.output, List.filter_append, hlast, List.append_nil]

theorem accept (h : InOrder ts y) (ht : y.accept t = .ok y') : InOrder (ts ++ [t]) y' := by
  unfold Yard.accept at ht
  cases hkind : t.kind with
  | literal | escape =>
    rw [hkind] at ht
    exact h.operand ht
  | openParen =>
    rw [hkind] at ht
    exact (h.openGroup ht (by rw [hkind]; rfl)).append_of_not_isOperand (by rw [hkind]; rfl)
  | closeParen =>
    rw [hkind] at ht
    exact (h.closeGroup ht).append_of_not_isOperand (by rw [hkind]; rfl)
  | star | plus | question | union | concat =>
    rw [hkind] at ht
    exact (h.operator ht (by rw [hkind]; decide)).append_of_not_isOperand (by rw [hkind]; rfl)
  | epsilon | endMark =>
    rw [hkind] at ht
    cases ht

theorem apply (h : InOrder ts y) (ht : y.apply t = .ok y') : InOrder (ts ++ [t]) y' := by
  obtain ⟨joined, hjoined, hrest⟩ := bind_eq_ok_iff.mp ht
  obtain ⟨taken, htaken, hy⟩ := bind_eq_ok_iff.mp hrest
  cases hy
  obtain ⟨hout, hwait⟩ := (h.join hjoined).accept htaken
  exact ⟨hout, hwait⟩

theorem foldlM (h : InOrder ts y) (hrun : us.foldlM Yard.apply y = .ok y') :
    InOrder (ts ++ us) y' := by
  induction us generalizing ts y with
  | nil =>
    cases hrun
    rw [List.append_nil]
    exact h
  | cons u us ih =>
    obtain ⟨next, hnext, hrest⟩ := bind_eq_ok_iff.mp hrun
    have htaken := ih (h.apply hnext) hrest
    rwa [List.append_assoc] at htaken

theorem finish (h : InOrder ts y) (ht : y.finish = .ok rpn) :
    rpn.filter (·.kind.isOperand) = ts.filter (·.kind.isOperand) := by
  obtain ⟨-, rfl⟩ := finish_eq_ok ht
  rw [List.filter_append, h.output, filter_isOperand h.waiting, List.append_nil]

end InOrder

/-! ## Runs -/

/-- A yard gets through no stray token. -/
theorem kind_ne_epsilon_of_foldlM (h : ts.foldlM apply y = .ok y') (ht : t ∈ ts) :
    t.kind ≠ .epsilon := by
  induction ts generalizing y with
  | nil => cases ht
  | cons u ts ih =>
    obtain ⟨next, hnext, hrest⟩ := bind_eq_ok_iff.mp h
    rcases List.mem_cons.mp ht with rfl | ht
    · intro hkind
      have hnest := nest_of_apply hnext
      rw [hkind] at hnest
      cases hnest
    · exact ih hrest ht

/-- What is told while a yard gets through tokens are the silent concatenations. -/
theorem events_foldlM (h : ts.foldlM apply y = .ok y') :
    (ts.foldlM consume y).events =
      (joints y.previous ts).map fun t => .juxtaposed t.position := by
  induction ts generalizing y with
  | nil => rfl
  | cons t ts ih =>
    obtain ⟨next, hnext, hrest⟩ := bind_eq_ok_iff.mp h
    have hevents : y.events t = (joint y.previous t).map fun t => .juxtaposed t.position := by
      rw [events, juxtaposes, joint]
      split
      · rfl
      · rfl
    rw [List.foldlM_cons, Traced.events_bind, joints, List.map_append, ← hevents,
      ← (contents_apply hnext).2, ← ih hrest, show (y.consume t).result = .ok next from hnext]
    rfl

end Yard

/-! ## Streams -/

/-- In front of the mark of the end, a stream that is put into postorder holds parentheses
and what postorder has a place for. -/
theorem isStray_of_mem_body (h : ofTokens ts = .ok rpn) (ht : t ∈ body ts) :
    t.kind.isStray = decide (t.kind ∈ [Kind.openParen, .closeParen]) := by
  rw [ofTokens_eq] at h
  obtain ⟨y, hrun, -⟩ := bind_eq_ok_iff.mp h
  have hepsilon : t.kind ≠ .epsilon := Yard.kind_ne_epsilon_of_foldlM hrun ht
  have hend : t.kind ≠ .endMark := kind_ne_endMark_of_mem_body ht
  cases hkind : t.kind with
  | epsilon => exact absurd hkind hepsilon
  | endMark => exact absurd hkind hend
  | _ => rfl

theorem filter_isOperand_ofTokens (h : ofTokens ts = .ok rpn) :
    rpn.filter (·.kind.isOperand) = (body ts).filter (·.kind.isOperand) := by
  rw [ofTokens_eq] at h
  obtain ⟨y, hrun, hfinish⟩ := bind_eq_ok_iff.mp h
  exact ((Yard.InOrder.ofRoom _).foldlM hrun).finish hfinish

/-- A postorder holds the tokens of its stream but for the parentheses, and the silent
concatenations between them. -/
theorem perm_silent (h : ofTokens ts = .ok rpn) :
    rpn.Perm ((body ts).filter (fun t => t.kind ∉ [Kind.openParen, .closeParen]) ++
      silent (body ts)) := by
  have hkept : (body ts).filter (fun t => t.kind ∉ [Kind.openParen, .closeParen]) =
      (body ts).filter fun t => !t.kind.isStray := by
    refine List.filter_congr fun t ht => ?_
    rw [isStray_of_mem_body h ht, decide_not]
  rw [hkept, ← joints_none]
  exact (perm_filled h).trans (filled_perm none (body ts))

theorem events_traced (h : ofTokens ts = .ok rpn) :
    (traced ts).events = (silent (body ts)).map fun t => .juxtaposed t.position := by
  rw [ofTokens_eq] at h
  obtain ⟨y, hrun, -⟩ := bind_eq_ok_iff.mp h
  have hevents := Yard.events_foldlM hrun
  have hresult : ((body ts).foldlM Yard.consume (Yard.ofRoom (2 * ts.length))).result = .ok y := by
    rw [Traced.result_foldlM]
    exact hrun
  rw [show (Yard.ofRoom (2 * ts.length)).previous = none from rfl, joints_none] at hevents
  rw [traced, Traced.events_bind, hresult, hevents]
  exact List.append_nil _

/-- A log keeps where the right neighbour of each silent concatenation stands. -/
theorem records_traced (h : ofTokens ts = .ok rpn) :
    (traced ts).events.map Event.record = (silent (body ts)).map fun t =>
      (Level.trace, "implicit concatenation before offset " ++ toString t.position) := by
  rw [events_traced h, List.map_map]
  rfl

/-- A reordering that comes out well loses nothing, doubles nothing and invents nothing:
no parenthesis and no stray token comes out of it, the operands come out in their order,
and all that comes out are the tokens that went in and the silent concatenations between
them.  These and no others are told, in reading order, and a log keeps their places. -/
theorem ofTokens_conserves (h : ofTokens ts = .ok rpn) :
    (∀ t ∈ rpn, t.kind ∉ [Kind.openParen, .closeParen, .epsilon, .endMark]) ∧
    rpn.filter (·.kind.isOperand) = (body ts).filter (·.kind.isOperand) ∧
    rpn.Perm ((body ts).filter (fun t => t.kind ∉ [Kind.openParen, .closeParen]) ++
      silent (body ts)) ∧
    (traced ts).events = (silent (body ts)).map (fun t => .juxtaposed t.position) ∧
    (traced ts).events.map Event.record = (silent (body ts)).map fun t =>
      (Level.trace, "implicit concatenation before offset " ++ toString t.position) := by
  refine ⟨?_, filter_isOperand_ofTokens h, perm_silent h, events_traced h, records_traced h⟩
  have hstrays : ∀ k ∈ [Kind.openParen, .closeParen, .epsilon, .endMark], k.isStray = true := by
    decide
  intro t ht hkind
  have hstray := isStray_of_mem_ofTokens h ht
  rw [hstrays t.kind hkind] at hstray
  cases hstray

/-- Operators without operands, groups, and a token behind the end. -/
def scattered : List Token :=
  [⟨.star, "*", 0⟩, ⟨.openParen, "(", 1⟩, ⟨.literal, "a", 2⟩, ⟨.union, "|", 3⟩,
    ⟨.closeParen, ")", 4⟩, ⟨.escape, "d1", 5⟩, ⟨.plus, "+", 8⟩, ⟨.openParen, "(", 9⟩,
    ⟨.literal, "b", 10⟩, ⟨.closeParen, ")", 11⟩, ⟨.endMark, "", 12⟩, ⟨.literal, "c", 13⟩]

/-- What becomes of them: the silent concatenations stand out of reading order. -/
def gathered : List Token :=
  [⟨.star, "*", 0⟩, ⟨.literal, "a", 2⟩, ⟨.union, "|", 3⟩, ⟨.concat, "", 1⟩, ⟨.escape, "d1", 5⟩,
    ⟨.plus, "+", 8⟩, ⟨.concat, "", 5⟩, ⟨.literal, "b", 10⟩, ⟨.concat, "", 9⟩]

theorem ofTokens_conserves_scattered :
    ofTokens scattered = .ok gathered ∧
      gathered.filter (·.kind.isOperand) = (body scattered).filter (·.kind.isOperand) ∧
      gathered.Perm ((body scattered).filter (fun t => t.kind ∉ [Kind.openParen, .closeParen]) ++
        [⟨.concat, "", 1⟩, ⟨.concat, "", 5⟩, ⟨.concat, "", 9⟩]) ∧
      (traced scattered).events = [.juxtaposed 1, .juxtaposed 5, .juxtaposed 9] ∧
      (traced scattered).events.map Event.record =
        [(.trace, "implicit concatenation before offset 1"),
          (.trace, "implicit concatenation before offset 5"),
          (.trace, "implicit concatenation before offset 9")] := by
  have h : ofTokens scattered = .ok gathered := rfl
  obtain ⟨-, hoperands, hperm, hevents, hrecords⟩ := ofTokens_conserves h
  exact ⟨h, hoperands, hperm, hevents, hrecords⟩

end Rpn

end PatternAutomata
