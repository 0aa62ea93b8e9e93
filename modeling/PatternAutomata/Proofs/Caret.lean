import PatternAutomata.Proofs.Blame
import PatternAutomata.Proofs.Scan.Leftmost

/-!
# The caret under a fault

A diagnostic is a heading, the pattern behind a margin, and a caret behind a margin.  The
caret stands in the column of the character that is to blame (`Text.StandsAt`).  If the
pattern takes one line, it stands under that character (`Text.CaretUnder`).

A line feed in a pattern is a fault wherever it stands, so the leftmost fault is that line
feed or something in front of it (`cut_of_compile_error`).  All in front of the leftmost fault
is in the first line of the pattern.  So the column is right for the first line of a pattern,
but the caret is drawn below the last one, and there is no such line as the pattern if there
are several (`caret_under_fault`).
-/

namespace PatternAutomata

namespace Text

variable {α : Type} [BEq α] [LawfulBEq α] {a : α} {xs : List α}
variable {text rendered : String} {position column : Nat}

/-! ## Lines -/

/-- What does not hold the separator becomes part of the first piece. -/
theorem splitOn_append_of_notMem (h : a ∉ xs) (ys : List α) :
    (xs ++ ys).splitOn a = (ys.splitOn a).modifyHead (xs ++ ·) := by
  induction xs with
  | nil => exact (congrFun List.modifyHead_id _).symm
  | cons x xs ih =>
    rw [List.mem_cons, not_or] at h
    have hne : ¬(x == a) = true := fun heq => h.1 (beq_iff_eq.mp heq).symm
    rw [List.cons_append, List.splitOn_cons_eq_if_modifyHead, if_neg hne, ih h.2,
      List.modifyHead_modifyHead]
    rfl

/-- No piece holds the separator. -/
theorem notMem_of_mem_splitOn (a : α) (xs : List α) : ∀ l ∈ xs.splitOn a, a ∉ l := by
  induction xs with
  | nil =>
    rw [List.splitOn_nil, List.forall_mem_singleton]
    exact List.not_mem_nil
  | cons x xs ih =>
    obtain ⟨first, others, hsplit⟩ := List.exists_cons_of_ne_nil (List.splitOn_ne_nil a xs)
    rw [hsplit] at ih
    rw [List.splitOn_cons_eq_if_modifyHead, hsplit]
    split
    · exact List.forall_mem_cons.mpr ⟨List.not_mem_nil, ih⟩
    · next hne =>
      rw [List.forall_mem_cons] at ih
      refine List.forall_mem_cons.mpr ⟨fun hmem => ?_, ih.2⟩
      rcases List.mem_cons.mp hmem with rfl | hmem
      · exact hne (beq_self_eq_true a)
      · exact ih.1 hmem

/-- The lines of a text, without the line feeds between them. -/
def lines (text : String) : List (List Char) := text.toList.splitOn '\n'

/-! ## Columns -/

/-- A column of a text holds the character that starts at a byte offset, or it is the one
behind the last character and the offset is the end of the text. -/
def StandsAt (text : String) (position column : Nat) : Prop :=
  ∃ before behind, text = before ++ behind ∧ position = before.utf8ByteSize ∧
    column = before.toList.length

theorem StandsAt.caretColumn_eq (h : StandsAt text position column) :
    caretColumn text position = column := by
  obtain ⟨before, behind, rfl, rfl, rfl⟩ := h
  exact caretColumn_append before behind

/-- What stands in front of a text and of a caret. -/
def margin : List Char := [' ', '|', ' ']

/-- The line of a caret. -/
def caretLine (column : Nat) : List Char := margin ++ List.replicate column ' ' ++ ['^']

/-- The last two lines show a text and below it a caret, in the column of the character that
starts at a byte offset. -/
def CaretUnder (rendered text : String) (position : Nat) : Prop :=
  ∃ above column, lines rendered = above ++ [margin ++ text.toList, caretLine column] ∧
    StandsAt text position column

/-- A text that is shown in a line takes one line. -/
theorem CaretUnder.notMem (h : CaretUnder rendered text position) : '\n' ∉ text.toList := by
  obtain ⟨above, column, hlines, -⟩ := h
  intro hfeed
  have hline : margin ++ text.toList ∈ lines rendered := by simp [hlines]
  exact notMem_of_mem_splitOn _ _ _ hline (List.mem_append_right _ hfeed)

end Text

open Text

/-! ## Diagnostics -/

theorem toList_pushn (s : String) (c : Char) (n : Nat) :
    (s.pushn c n).toList = s.toList ++ List.replicate n c := by
  rw [String.pushn_eq_repeat_push]
  induction n with
  | zero => exact (List.append_nil _).symm
  | succ n ih => rw [Nat.repeat, String.toList_push, ih, List.append_assoc, List.replicate_succ']

/-- A diagnostic with a heading of one line is that line, the lines of the text behind a
margin, and the line of the caret. -/
theorem Diagnostic.lines_render {d : Diagnostic} (hstage : '\n' ∉ d.stage.toList)
    (hmessage : '\n' ∉ d.message.toList) :
    lines (d.render .plain) = (d.stage ++ " error: " ++ d.message).toList ::
      ((lines d.input).modifyHead (margin ++ ·) ++ [caretLine (caretColumn d.input d.position)]) := by
  have htext : (d.render .plain).toList = (d.stage ++ " error: " ++ d.message).toList ++
      '\n' :: ((margin ++ d.input.toList) ++
        '\n' :: caretLine (caretColumn d.input d.position)) := by
    simp [Diagnostic.render, heading, toList_pushn, margin, caretLine]
  have hheading : '\n' ∉ (d.stage ++ " error: " ++ d.message).toList := by
    simp [hstage, hmessage]
  have hmargin : '\n' ∉ margin := by decide
  have hcaret : '\n' ∉ caretLine (caretColumn d.input d.position) := by
    simp [caretLine, margin]
  rw [lines, htext, List.splitOn_append_cons_self_of_not_mem hheading,
    List.splitOn_append_cons_self, splitOn_append_of_notMem hmargin,
    List.splitOn_eq_singleton hcaret]
  rfl

variable {p : String} {flags : Flags} {e : CompileError} {ts : List Token} {fault : ScanFault}

theorem StageFault.notMem_stage (f : StageFault) : '\n' ∉ f.stage.toList := by
  cases f <;> simp [stage]

/-- What a compilation tells takes one line. -/
theorem notMem_message (h : compile p flags = .error e) : '\n' ∉ e.message.toList := by
  obtain ⟨cause, position, rfl⟩ | ⟨position, rfl⟩ | ⟨rfl, -⟩ := compile_error_cases h
  · change '\n' ∉ cause.message.toList
    cases cause <;> simp [ScanCause.message]
  · change '\n' ∉ BuildCause.missingOperand.message.toList
    simp [BuildCause.message]
  · change '\n' ∉ BuildCause.emptyExpression.message.toList
    simp [BuildCause.message]

/-! ## Line feeds -/

/-- A line feed is a fault wherever it stands. -/
theorem isFault_lineFeed (before behind : List Char) : IsFault before '\n' behind :=
  ⟨.strayChar, .strayChar (by decide) (by decide)⟩

/-- A pattern that is scanned takes one line. -/
theorem notMem_of_scan (h : scan p = .ok ts) : '\n' ∉ p.toList := by
  obtain ⟨-, hne, -⟩ := scan_run h
  rcases leftmostFault_or_nowhere p.toList with ⟨fault, hfault⟩ | ⟨hnone, -⟩
  · rw [scan_of_leftmostFault (mt (congrArg String.toList) hne) hfault] at h
    cases h
  · exact hnone.notMem isFault_lineFeed

/-- A scan gives up in the first line. -/
theorem cut_of_scan_error (h : scan p = .error fault) :
    ∃ before behind, p = before ++ behind ∧ fault.position = before.utf8ByteSize ∧
      '\n' ∉ before.toList := by
  by_cases hne : p = ""
  · subst hne
    cases h
    exact ⟨"", "", rfl, rfl, List.not_mem_nil⟩
  rcases leftmostFault_or_nowhere p.toList with ⟨fault', hfault⟩ | ⟨hnone, hclosed⟩
  · rw [scan_of_leftmostFault hne hfault, Except.error.injEq] at h
    subst h
    cases hfault with
    | @character before behind c cause first faulty =>
      refine ⟨.ofList before, .ofList (c :: behind), ?_, rfl, ?_⟩
      · rw [← String.toList_inj, first.eq]
        simp
      · rw [String.toList_ofList]
        exact first.earlier.notMem fun front rest => isFault_lineFeed front _
    | unclosed none opened =>
      refine ⟨p, "", String.append_empty.symm, ?_, none.notMem isFault_lineFeed⟩
      rw [String.ofList_toList]
      rfl
  · obtain ⟨ts, hscan⟩ := exists_scan hne hnone hclosed
    rw [hscan] at h
    cases h

/-- A compilation gives up in the first line. -/
theorem cut_of_compile_error (h : compile p flags = .error e) :
    ∃ before behind, p = before ++ behind ∧ e.position = before.utf8ByteSize ∧
      '\n' ∉ before.toList := by
  obtain ⟨fault, hscan, rfl⟩ | ⟨ts, rpn, fault, hscan, -, -, rfl⟩ := compile_eq_error h
  · exact cut_of_scan_error hscan
  · obtain ⟨before, behind, hsplits, -⟩ := splits_of_compile_error h
    refine ⟨before, behind, hsplits.text_eq, hsplits.position_eq, fun hmem => ?_⟩
    refine notMem_of_scan hscan ?_
    rw [hsplits.text_eq, String.toList_append]
    exact List.mem_append_left _ hmem

/-! ## The caret -/

/-- The error of a pattern shows the lines of the pattern below its heading, the first of
them behind a margin, and then a caret behind a margin.  The caret stands in the column of
the fault, which is in the first line. -/
theorem lines_render (h : compile p flags = .error e) :
    ∃ first others column, lines p = first :: others ∧
      lines (e.render .plain) = (e.fault.stage ++ " error: " ++ e.message).toList ::
        (margin ++ first) :: (others ++ [caretLine column]) ∧
      StandsAt p e.position column ∧ column ≤ first.length := by
  obtain ⟨before, behind, hp, hposition, hfeed⟩ := cut_of_compile_error h
  obtain ⟨rest, others, hrest⟩ := List.exists_cons_of_ne_nil (List.splitOn_ne_nil '\n' behind.toList)
  have hlines : lines p = (before.toList ++ rest) :: others := by
    rw [lines, hp, String.toList_append, splitOn_append_of_notMem hfeed, hrest]
    rfl
  have hstands : StandsAt p e.position before.toList.length := ⟨before, behind, hp, hposition, rfl⟩
  refine ⟨_, _, _, hlines, ?_, hstands, ?_⟩
  · have hrendered : lines (e.render .plain) = (e.fault.stage ++ " error: " ++ e.message).toList ::
        ((lines e.input).modifyHead (margin ++ ·) ++
          [caretLine (caretColumn e.input e.position)]) :=
      Diagnostic.lines_render e.fault.notMem_stage (notMem_message h)
    rw [hrendered, input_of_compile_error h, hlines, hstands.caretColumn_eq]
    rfl
  · rw [List.length_append]
    exact Nat.le_add_right _ _

/-- The caret stands under the fault if and only if the pattern takes one line.  Its column is
that of the fault in any case, and the fault is in the first line. -/
theorem caret_under_fault (h : compile p flags = .error e) :
    (CaretUnder (e.render .plain) p e.position ↔ '\n' ∉ p.toList) ∧
    ∃ first others column, lines p = first :: others ∧
      lines (e.render .plain) = (e.fault.stage ++ " error: " ++ e.message).toList ::
        (margin ++ first) :: (others ++ [caretLine column]) ∧
      StandsAt p e.position column ∧ column ≤ first.length := by
  refine ⟨⟨CaretUnder.notMem, fun hfeed => ?_⟩, lines_render h⟩
  obtain ⟨first, others, column, hlines, hrendered, hstands, -⟩ := lines_render h
  rw [lines, List.splitOn_eq_singleton hfeed, List.cons.injEq] at hlines
  obtain ⟨rfl, rfl⟩ := hlines
  exact ⟨[_], column, hrendered, hstands⟩

/-- A fault behind a group, with characters of several bytes behind it. -/
theorem caret_under_fault_stray :
    ∃ e, compile "(a)é|" Flags.empty = .error e ∧
      CaretUnder (e.render .plain) "(a)é|" e.position := by
  have hstray : compile "(a)é|" Flags.empty =
      .error ⟨"(a)é|", .scanning (ScanCause.strayChar.fault 3)⟩ := rfl
  exact ⟨_, hstray, (caret_under_fault hstray).1.mpr (by decide)⟩

/-- Another line behind the fault comes between the fault and the caret. -/
theorem not_caretUnder_lineFeed :
    ∃ e, compile "a&\nb" Flags.empty = .error e ∧
      ¬CaretUnder (e.render .plain) "a&\nb" e.position := by
  have hstray : compile "a&\nb" Flags.empty =
      .error ⟨"a&\nb", .scanning (ScanCause.strayChar.fault 1)⟩ := rfl
  exact ⟨_, hstray, fun hunder => hunder.notMem (by decide)⟩

end PatternAutomata
