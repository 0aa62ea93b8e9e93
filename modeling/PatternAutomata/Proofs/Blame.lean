import PatternAutomata.Proofs.Builder.Taken
import PatternAutomata.Proofs.Scan.Faults
import PatternAutomata.Proofs.Stages

/-!
# Errors point into their pattern

An error of a compilation names an offset of the pattern that it is about.  What stands
in front of the offset is ASCII, so the offset is a boundary between two characters, and
the caret stands in its column (`error_points_into_pattern`).

A scan gives up behind ASCII characters.  A builder blames an operator of the postorder,
and whatever passes a scan is ASCII.  The operator stands at its own sign, or it is a
silent concatenation and stands where its right operand starts (`Kind.ShownBy`).
-/

namespace PatternAutomata

variable {p : String} {flags : Flags} {e : CompileError} {ts rpn : List Token} {t : Token}

/-! ## Who is blamed -/

/-- An operator of this kind is found at this character of a pattern: at its own sign, or
at the start of an operand or a group if it has no sign. -/
inductive Kind.ShownBy : Kind → Char → Prop where
  | sign {k : Kind} {c : Char} (sign : k.sign = some c) (mem : c ∈ ['|', '*', '+', '?']) :
      ShownBy k c
  | silent {c : Char} (starts : c.isAlphanum = true ∨ c = '\\' ∨ c = '(') : ShownBy .concat c

/-- An operator in the postorder of a pattern stands at an offset, where a character shows
it. -/
def OperatorAt (p : String) (position : Nat) (c : Char) : Prop :=
  ∃ ts rpn t, scan p = .ok ts ∧ Rpn.ofTokens ts = .ok rpn ∧ t ∈ rpn ∧ t.position = position ∧
    t.kind.ShownBy c

/-- A token of a pattern that takes operands is a sign. -/
theorem Token.Canonical.shownBy (h : t.Canonical) (harity : 0 < t.kind.arity) :
    ∃ c, t.text.toList = [c] ∧ t.kind.ShownBy c := by
  rw [canonical_iff_isLexeme, IsLexeme] at h
  generalize t.kind = kind, t.text.toList = cs at h harity
  cases h with
  | literal | escape => cases harity
  | @sign kind c hsign =>
    refine ⟨c, rfl, .sign hsign ?_⟩
    cases kind with
    | union | star | plus | question =>
      cases hsign
      decide
    | openParen | closeParen => cases harity
    | literal | escape | concat | epsilon | endMark => cases hsign

/-- A silent concatenation is shown where an operand or a group starts. -/
theorem Token.Canonical.shownBy_concat (h : t.Canonical) (hstarts : t.kind.startsOperand = true) :
    ∃ c cs, t.text.toList = c :: cs ∧ Kind.concat.ShownBy c := by
  rw [canonical_iff_isLexeme, IsLexeme] at h
  generalize t.kind = kind, t.text.toList = cs at h hstarts
  cases h with
  | literal hc => exact ⟨_, _, rfl, .silent (.inl hc)⟩
  | escape => exact ⟨_, _, rfl, .silent (.inr (.inl rfl))⟩
  | @sign kind c hsign =>
    refine ⟨c, [], rfl, .silent (.inr (.inr ?_))⟩
    cases kind with
    | openParen =>
      cases hsign
      rfl
    | literal | escape => cases hsign
    | _ => cases hstarts

/-- A pattern splits at the first character of a token. -/
theorem splits_of_mem_body {c : Char} {cs : List Char} (hscan : scan p = .ok ts)
    (ht : t ∈ Rpn.body ts) (htext : t.text.toList = c :: cs) :
    ∃ before behind, Text.Splits p t.position before (.ofList (c :: behind)) := by
  obtain ⟨before, behind, hsplits⟩ := splits_of_scan hscan ht
  have hbehind : t.text ++ behind = .ofList (c :: (cs ++ behind.toList)) := by
    rw [← String.toList_inj]
    simp [htext]
  exact ⟨before, cs ++ behind.toList, hbehind ▸ hsplits⟩

/-- A pattern splits where an operator of its postorder stands, and shows the operator
there. -/
theorem splits_of_mem_ofTokens (hscan : scan p = .ok ts) (hordered : Rpn.ofTokens ts = .ok rpn)
    (ht : t ∈ rpn) (harity : 0 < t.kind.arity) :
    ∃ before c behind, Text.Splits p t.position before (.ofList (c :: behind)) ∧
      t.kind.ShownBy c := by
  obtain ⟨-, -, hwritable⟩ := body_of_scan hscan
  rcases Rpn.mem_ofTokens hordered ht with ⟨hbody, -⟩ | ⟨u, hbody, hstarts, rfl⟩
  · obtain ⟨c, htext, hshown⟩ := (hwritable.canonical t hbody).shownBy harity
    obtain ⟨before, behind, hsplits⟩ := splits_of_mem_body hscan hbody htext
    exact ⟨before, c, behind, hsplits, hshown⟩
  · obtain ⟨c, cs, htext, hshown⟩ := (hwritable.canonical u hbody).shownBy_concat hstarts
    obtain ⟨before, behind, hsplits⟩ := splits_of_mem_body hscan hbody htext
    exact ⟨before, c, behind, hsplits, hshown⟩

/-- A builder that lacks an operand blames a token that takes some. -/
theorem exists_of_missingOperand {position : Nat}
    (h : build rpn flags = .error (BuildCause.missingOperand.fault position)) :
    ∃ t ∈ rpn, 0 < t.kind.arity ∧ t.position = position := by
  have htook := took_build rpn flags
  generalize build rpn flags = result, Builder.empty.taken rpn = taken at h htook
  cases htook with
  | built => cases h
  | ended hcause =>
    rw [Except.error.injEq, BuildCause.fault_inj] at h
    rw [h.1] at hcause
    rcases hcause with hcause | hcause <;> cases hcause
  | @stopped before behind t _ split _ lacks =>
    rw [Except.error.injEq, BuildCause.fault_inj] at h
    refine ⟨t, ?_, Nat.zero_lt_of_lt lacks, h.2⟩
    rw [split]
    exact List.mem_append_right _ List.mem_cons_self

/-- A builder gives up in front of a character of the pattern, which shows the operator if
one lacks an operand. -/
theorem splits_of_build_error {fault : BuildFault} (hscan : scan p = .ok ts)
    (hordered : Rpn.ofTokens ts = .ok rpn) (h : build rpn flags = .error fault) :
    ∃ before behind, Text.Splits p fault.position before behind ∧ behind ≠ "" ∧
      (fault.message = "operator is missing an operand" →
        ∃ c, behind.toList.head? = some c ∧ OperatorAt p fault.position c) := by
  obtain ⟨a, ha⟩ | ⟨t, -, hfault⟩ | ⟨-, hfault⟩ := build_cases hordered flags
  · rw [ha] at h
    cases h
  · obtain ⟨u, hu, harity, hposition⟩ := exists_of_missingOperand hfault
    rw [hfault, Except.error.injEq] at h
    subst h
    obtain ⟨before, c, behind, hsplits, hshown⟩ := splits_of_mem_ofTokens hscan hordered hu harity
    rw [hposition] at hsplits
    refine ⟨before, _, hsplits, ?_, fun _ => ⟨c, ?_, ts, rpn, u, hscan, hordered, hu, hposition,
      hshown⟩⟩
    · simp [← String.toList_inj]
    · simp
  · -- The fault is told at the start, and there is something in the pattern.
    obtain ⟨-, hne, -⟩ := scan_run hscan
    rw [hfault, Except.error.injEq] at h
    subst h
    refine ⟨"", p, ⟨String.empty_append.symm, rfl, nofun⟩, mt String.toList_inj.mpr hne,
      fun hmessage => ?_⟩
    exact absurd (show BuildCause.emptyExpression.message = _ from hmessage) (by decide)

/-! ## Errors -/

/-- The pattern has ended where it should go on. -/
def StageFault.IsEnd (f : StageFault) : Prop :=
  ∃ fault : ScanFault, f = .scanning fault ∧ fault.kind = .unexpectedEnd

theorem StageFault.isEnd_scanning {fault : ScanFault} :
    (scanning fault).IsEnd ↔ fault.kind = .unexpectedEnd := by
  constructor
  · rintro ⟨fault', heq, hkind⟩
    cases heq
    exact hkind
  · intro hkind
    exact ⟨fault, rfl, hkind⟩

theorem StageFault.not_isEnd_building {fault : BuildFault} : ¬(building fault).IsEnd := by
  rintro ⟨fault', heq, -⟩
  cases heq

/-- A compilation splits its pattern where it gives up. -/
theorem splits_of_compile_error (h : compile p flags = .error e) :
    ∃ before behind, Text.Splits p e.position before behind ∧
      (behind = "" ↔ p = "" ∨ e.fault.IsEnd) ∧
      (e.message = "operator is missing an operand" →
        ∃ c, behind.toList.head? = some c ∧ OperatorAt p e.position c) := by
  obtain ⟨fault, hscan, rfl⟩ | ⟨ts, rpn, fault, hscan, hordered, hbuild, rfl⟩ := compile_eq_error h
  · obtain ⟨before, behind, hsplits, hend⟩ := splits_of_scan_error hscan
    obtain ⟨cause, position, rfl⟩ := scan_eq_error hscan
    rw [← StageFault.isEnd_scanning] at hend
    exact ⟨before, behind, hsplits, hend, fun hmessage =>
      absurd hmessage (cause.message_ne .missingOperand)⟩
  · obtain ⟨before, behind, hsplits, hbehind, hmissing⟩ :=
      splits_of_build_error hscan hordered hbuild
    obtain ⟨-, hne, -⟩ := scan_run hscan
    have hp : p ≠ "" := mt String.toList_inj.mpr hne
    have hsome : ¬(p = "" ∨ (StageFault.building fault).IsEnd) :=
      not_or.mpr ⟨hp, StageFault.not_isEnd_building⟩
    exact ⟨before, behind, hsplits, iff_of_false hbehind hsome, hmissing⟩

/-- An error of a compilation knows its pattern, and its offset is a boundary between two
characters of it, behind ASCII characters only.  It is the end of the pattern only if there
is no pattern or the pattern has ended too early.  The caret stands in the column of the
offset.  An operator that lacks an operand is shown by the character behind the offset. -/
theorem error_points_into_pattern (h : compile p flags = .error e) :
    e.input = p ∧ (String.Pos.Raw.mk e.position).IsValid p ∧ e.position ≤ p.utf8ByteSize ∧
    (e.position = p.utf8ByteSize ↔ p = "" ∨ e.fault.IsEnd) ∧
    Text.caretColumn p e.position = e.position ∧
    ∃ before behind, Text.Splits p e.position before behind ∧
      (e.message = "operator is missing an operand" →
        ∃ c, behind.toList.head? = some c ∧ OperatorAt p e.position c) := by
  obtain ⟨before, behind, hsplits, hend, hmissing⟩ := splits_of_compile_error h
  have hinput : e.input = p := by
    obtain ⟨fault, -, rfl⟩ | ⟨ts, rpn, fault, -, -, -, rfl⟩ := compile_eq_error h
    · rfl
    · rfl
  exact ⟨hinput, hsplits.isValid, hsplits.position_le, hsplits.position_eq_iff.trans hend,
    hsplits.caretColumn_eq, before, behind, hsplits, hmissing⟩

theorem error_points_into_pattern_silent :
    (∃ e, compile "()a" Flags.empty = .error e ∧ ∃ c, OperatorAt "()a" e.position c) ∧
    ∃ e, compile "a+é" Flags.empty = .error e ∧ Text.caretColumn "a+é" e.position = e.position := by
  have hsilent : compile "()a" Flags.empty =
      .error ⟨"()a", .building (BuildCause.missingOperand.fault 2)⟩ := rfl
  have hstray : compile "a+é" Flags.empty =
      .error ⟨"a+é", .scanning (ScanCause.strayChar.fault 2)⟩ := rfl
  obtain ⟨-, -, -, -, -, before, behind, -, hmissing⟩ := error_points_into_pattern hsilent
  obtain ⟨-, -, -, -, hcaret, -⟩ := error_points_into_pattern hstray
  obtain ⟨c, -, hoperator⟩ := hmissing rfl
  exact ⟨⟨_, hsilent, c, hoperator⟩, _, hstray, hcaret⟩

end PatternAutomata
