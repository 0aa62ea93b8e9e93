import PatternAutomata.Proofs.Builder.Ownership
import PatternAutomata.Proofs.Compile
import PatternAutomata.Proofs.Scan.Nesting

/-!
# What the stages leave to each other

No stage checks the grammar, and each relies on the others.  The yard and the
builder together accept the token streams of the grammar and no others, wherever
the streams come from (`build_ok_iff_derives`).  A yard alone accepts more, but then
the builder finds a wrong number of fragments.

Behind a scan the stages leave each other few ways to fail (`stages_agree`).  The
tokens of a scan nest, so they are always put into postorder.  A postorder holds
nothing that the builder passes over, and at most one fragment is left in the end.
So an operator lacks an operand, or there is nothing in the pattern but groups
around nothing.
-/

namespace PatternAutomata

variable {p : String} {flags : Flags} {ts rpn : List Token} {e : CompileError}

/-! ## From tokens to an automaton -/

/-- A stream derives an expression if and only if its postorder is built, and it
derives none if and only if one of the two stages gives up. -/
theorem build_ok_iff_derives (ts : List Token) (flags : Flags) :
    ((∃ rpn a, Rpn.ofTokens ts = .ok rpn ∧ build rpn flags = .ok a) ↔
      ∃ e, Derives .choice (Rpn.body ts) e) ∧
    ((¬∃ e, Derives .choice (Rpn.body ts) e) ↔
      (∃ fault, Rpn.ofTokens ts = .error fault) ∨
        ∃ rpn fault, Rpn.ofTokens ts = .ok rpn ∧ build rpn flags = .error fault) := by
  have hiff : (∃ rpn a, Rpn.ofTokens ts = .ok rpn ∧ build rpn flags = .ok a) ↔
      ∃ e, Derives .choice (Rpn.body ts) e := by
    constructor
    · intro h
      obtain ⟨rpn, a, hordered, hbuild⟩ := h
      obtain ⟨e, region, hspelled, -⟩ := part_of_build hbuild
      exact Rpn.derives_of_surplus hordered (Expr.surplus_of_ofRpn? hspelled)
    · intro h
      obtain ⟨e, hderives⟩ := h
      obtain ⟨a, hbuild⟩ := exists_build_eq_ok (Expr.ofRpn?_postorder hderives.kinded) flags
      exact ⟨_, a, Rpn.ofTokens_of_derives hderives, hbuild⟩
  refine ⟨hiff, ?_⟩
  rw [← hiff]
  cases hordered : Rpn.ofTokens ts with
  | error fault => simp
  | ok rpn =>
    cases hbuild : build rpn flags with
    | error fault => simp [hbuild]
    | ok a => simp [hbuild]

/-! ## Behind a scan -/

/-- The postorder of a stream is built, or an operator lacks an operand, or there is
nothing in the postorder. -/
theorem build_cases (h : Rpn.ofTokens ts = .ok rpn) (flags : Flags) :
    (∃ a, build rpn flags = .ok a) ∨
      (∃ t ∈ rpn, build rpn flags = .error (BuildCause.missingOperand.fault t.position)) ∨
      rpn = [] ∧ build rpn flags = .error (BuildCause.emptyExpression.fault 0) := by
  rw [build_eq]
  rcases Builder.foldlM_cases Builder.sound_empty rpn with ⟨b, hrun, -⟩ | ⟨t, ht, hfault⟩
  · obtain ⟨es, hes, hlength⟩ := Builder.length_foldlM hrun
    have hsurplus := Expr.length_foldlM_apply hes
    have hle := Rpn.surplus_le_one h
    rw [hrun, ok_bind]
    obtain ⟨g, stack⟩ := b
    match stack, hlength with
    | [], hlength =>
      obtain rfl := List.length_eq_zero_iff.mp hlength.symm
      obtain rfl := Expr.eq_nil_of_foldlM_apply hes fun _ ht => Rpn.isStray_of_mem_ofTokens h ht
      exact .inr (.inr ⟨rfl, rfl⟩)
    | [f], _ => exact .inl ⟨_, rfl⟩
    | _ :: _ :: _, hlength =>
      simp only [List.length_cons, List.length_nil] at hlength hsurplus
      omega
  · rw [hfault]
    exact .inr (.inl ⟨t, ht, rfl⟩)

/-- What is scanned is put into postorder. -/
theorem exists_ofTokens_of_scan (h : scan p = .ok ts) : ∃ rpn, Rpn.ofTokens ts = .ok rpn :=
  Rpn.exists_ofTokens_eq_ok (nesting_of_scan h)

/-- Only a scan and a builder keep a pattern from compiling. -/
theorem compile_eq_error (h : compile p flags = .error e) :
    (∃ fault, scan p = .error fault ∧ e = ⟨p, .scanning fault⟩) ∨
      ∃ ts rpn fault, scan p = .ok ts ∧ Rpn.ofTokens ts = .ok rpn ∧
        build rpn flags = .error fault ∧ e = ⟨p, .building fault⟩ := by
  cases hscan : scan p with
  | error fault =>
    rw [compile_of_scan_error hscan] at h
    cases h
    exact .inl ⟨fault, rfl, rfl⟩
  | ok ts =>
    obtain ⟨rpn, hordered⟩ := exists_ofTokens_of_scan hscan
    cases hbuild : build rpn flags with
    | ok a =>
      rw [compile_of_stages hscan hordered hbuild] at h
      cases h
    | error fault =>
      rw [compile_of_build_error hscan hordered hbuild] at h
      cases h
      exact .inr ⟨ts, rpn, fault, rfl, hordered, hbuild, rfl⟩

/-- An error knows its pattern. -/
theorem input_of_compile_error (h : compile p flags = .error e) : e.input = p := by
  obtain ⟨fault, -, rfl⟩ | ⟨ts, rpn, fault, -, -, -, rfl⟩ := compile_eq_error h
  · rfl
  · rfl

/-- The postorder of a scan is empty if and only if the pattern is groups around
nothing. -/
theorem ofTokens_eq_nil_iff_of_scan (hscan : scan p = .ok ts) (h : Rpn.ofTokens ts = .ok rpn) :
    rpn = [] ↔ ∃ n, p.toList = List.replicate n '(' ++ List.replicate n ')' := by
  rw [Rpn.ofTokens_eq_nil_iff h (nesting_of_scan hscan)]
  exact exists_congr fun n => hollow_iff_of_scan hscan n

/-! ## What is told -/

/-- In a reordering only silent concatenations are told. -/
theorem exists_juxtaposed_of_mem (ts : List Token) :
    ∀ e ∈ (Rpn.traced ts).events, ∃ position, e = .juxtaposed position := by
  refine Traced.forall_events_bind (Traced.forall_events_foldlM (fun t _ y e h => ?_) _)
    fun _ _ _ h => nomatch h
  change e ∈ y.events t at h
  unfold Rpn.Yard.events at h
  split at h
  · exact ⟨t.position, List.mem_singleton.mp h⟩
  · cases h

theorem level_events_rpnTraced (ts : List Token) :
    ∀ event ∈ (Rpn.traced ts).events, event.level ≠ .warn := by
  intro event h
  obtain ⟨position, rfl⟩ := exists_juxtaposed_of_mem ts event h
  exact nofun

/-- The builder warns of nothing if every token has a place in postorder. -/
theorem level_events_buildTraced (h : ∀ t ∈ rpn, t.kind.isStray = false) (flags : Flags) :
    ∀ event ∈ (buildTraced rpn flags).events, event.level ≠ .warn := by
  refine Traced.forall_events_bind (Traced.forall_events_foldlM (fun t ht b event hevent => ?_) _)
    fun _ _ _ h => nomatch h
  change event ∈ Builder.events flags t at hevent
  rw [Builder.events, h t ht, if_neg Bool.false_ne_true, List.append_nil] at hevent
  split at hevent
  · rw [List.mem_singleton.mp hevent]
    simp [Event.level]
  · cases hevent

/-- Compiling warns of nothing. -/
theorem level_events_compileTraced (p : String) (flags : Flags) :
    ∀ event ∈ (compileTraced p flags).events, event.level ≠ .warn := by
  refine Traced.forall_events_bind (fun _ h => nomatch h) fun ts _ => ?_
  refine Traced.forall_events_bind (by simp [Event.level]) fun _ _ => ?_
  refine Traced.forall_events_bind (level_events_rpnTraced ts) fun rpn hrpn => ?_
  have hordered : Rpn.ofTokens ts = .ok rpn := mapError_eq_ok_iff.mp hrpn
  refine Traced.forall_events_bind (by simp [Event.level]) fun _ _ => ?_
  refine Traced.forall_events_bind
    (level_events_buildTraced (fun _ ht => Rpn.isStray_of_mem_ofTokens hordered ht) flags)
    fun a _ => ?_
  exact Traced.forall_events_bind (by simp [Event.level]) fun _ _ _ h => nomatch h

/-! ## The contract -/

/-- The wordings of scans and of builders are different. -/
theorem ScanCause.message_ne (c : ScanCause) (d : BuildCause) : c.message ≠ d.message := by
  cases c <;> cases d <;> decide

/-- A fault of a compilation is one of a scan, or an operator lacks an operand, or there
is nothing in the postorder. -/
theorem compile_error_cases (h : compile p flags = .error e) :
    (∃ (cause : ScanCause) (position : Nat), e = ⟨p, .scanning (cause.fault position)⟩) ∨
      (∃ position, e = ⟨p, .building (BuildCause.missingOperand.fault position)⟩) ∨
      e = ⟨p, .building (BuildCause.emptyExpression.fault 0)⟩ ∧
        ∃ ts, scan p = .ok ts ∧ Rpn.ofTokens ts = .ok [] := by
  obtain ⟨fault, hscan, rfl⟩ | ⟨ts, rpn, fault, hscan, hordered, hbuild, rfl⟩ :=
    compile_eq_error h
  · obtain ⟨cause, position, rfl⟩ := scan_eq_error hscan
    exact .inl ⟨cause, position, rfl⟩
  · obtain ⟨a, ha⟩ | ⟨t, -, hfault⟩ | ⟨rfl, hfault⟩ := build_cases hordered flags
    · rw [ha] at hbuild
      cases hbuild
    · rw [hfault] at hbuild
      cases hbuild
      exact .inr (.inl ⟨t.position, rfl⟩)
    · rw [hfault] at hbuild
      cases hbuild
      exact .inr (.inr ⟨rfl, ts, hscan, hordered⟩)

/-- A compilation finds an expression empty if and only if the pattern is groups
around nothing. -/
theorem compile_empty_iff (p : String) (flags : Flags) :
    (∃ e, compile p flags = .error e ∧ e.message = "expression is empty") ↔
      ∃ n, 1 ≤ n ∧ p.toList = List.replicate n '(' ++ List.replicate n ')' := by
  constructor
  · intro h
    obtain ⟨e, he, hmessage⟩ := h
    obtain ⟨cause, position, rfl⟩ | ⟨position, rfl⟩ | ⟨rfl, ts, hscan, hordered⟩ :=
      compile_error_cases he
    · exact absurd hmessage (cause.message_ne .emptyExpression)
    · exact absurd (show BuildCause.missingOperand.message = _ from hmessage) (by decide)
    · obtain ⟨n, hn⟩ := (ofTokens_eq_nil_iff_of_scan hscan hordered).mp rfl
      obtain ⟨-, hne, -⟩ := scan_run hscan
      cases n with
      | zero => exact absurd hn hne
      | succ n => exact ⟨n + 1, Nat.le_add_left 1 n, hn⟩
  · intro h
    obtain ⟨n, hpos, hn⟩ := h
    have hne : p.toList ≠ [] := by
      rw [hn]
      simp [Nat.one_le_iff_ne_zero.mp hpos]
    obtain ⟨us, position, hscan, -⟩ := scan_hollow hn hne
    obtain ⟨rpn, hordered⟩ := exists_ofTokens_of_scan hscan
    obtain rfl := (ofTokens_eq_nil_iff_of_scan hscan hordered).mpr ⟨n, hn⟩
    exact ⟨_, compile_of_build_error hscan hordered rfl, rfl⟩

/-- A kind that postorder has a place for is an operand or an operator. -/
theorem Kind.mem_of_isStray {k : Kind} (h : k.isStray = false) :
    k ∈ [literal, escape, union, concat, star, plus, question] := by
  cases k with
  | openParen | closeParen | epsilon | endMark => cases h
  | _ => decide

/-- Behind a scan the reordering succeeds and leaves only operands and operators, and
the builder lacks an operand or finds nothing if it fails.  So compiling warns of
nothing, and few faults come out of it.  An expression is found empty exactly in
groups around nothing, and this is told at the start. -/
theorem stages_agree (p : String) (flags : Flags) :
    (∀ ts, scan p = .ok ts → ∃ rpn, Rpn.ofTokens ts = .ok rpn ∧
      (∀ t ∈ rpn, t.kind ∈
        [Kind.literal, .escape, .union, .concat, .star, .plus, .question]) ∧
      ((∃ a, build rpn flags = .ok a ∧ compile p flags = .ok { a with pattern := p }) ∨
        ∃ fault, build rpn flags = .error fault ∧
          compile p flags = .error ⟨p, .building fault⟩ ∧ fault.kind = .malformedExpression ∧
          (fault.message = "operator is missing an operand" ∨
            fault.message = "expression is empty" ∧ fault.position = 0))) ∧
    (∀ event ∈ (compileTraced p flags).events, event.level ≠ .warn) ∧
    (∀ e, compile p flags = .error e → e.message ≠ "operands are missing an operator" ∧
      (∀ fault, e.fault ≠ .parsing fault) ∧
      (∀ fault, e.fault = .building fault → fault.kind ≠ .internal) ∧
      (e.message = "expression is empty" → e.position = 0)) ∧
    ((∃ e, compile p flags = .error e ∧ e.message = "expression is empty") ↔
      ∃ n, 1 ≤ n ∧ p.toList = List.replicate n '(' ++ List.replicate n ')') := by
  refine ⟨fun ts hscan => ?_, level_events_compileTraced p flags, fun e he => ?_,
    compile_empty_iff p flags⟩
  · obtain ⟨rpn, hordered⟩ := exists_ofTokens_of_scan hscan
    refine ⟨rpn, hordered, fun t ht => ?_, ?_⟩
    · exact Kind.mem_of_isStray (Rpn.isStray_of_mem_ofTokens hordered ht)
    · obtain ⟨a, hbuild⟩ | ⟨t, -, hbuild⟩ | ⟨-, hbuild⟩ := build_cases hordered flags
      · exact .inl ⟨a, hbuild, compile_of_stages hscan hordered hbuild⟩
      · exact .inr ⟨_, hbuild, compile_of_build_error hscan hordered hbuild, rfl, .inl rfl⟩
      · exact .inr ⟨_, hbuild, compile_of_build_error hscan hordered hbuild, rfl, .inr ⟨rfl, rfl⟩⟩
  · obtain ⟨cause, position, rfl⟩ | ⟨position, rfl⟩ | ⟨rfl, -⟩ := compile_error_cases he
    · exact ⟨cause.message_ne .missingOperator, nofun, nofun,
        fun hmessage => absurd hmessage (cause.message_ne .emptyExpression)⟩
    · have hother : BuildCause.missingOperand.message ≠ "operands are missing an operator" ∧
          BuildCause.missingOperand.message ≠ "expression is empty" := by decide
      refine ⟨hother.1, nofun, fun fault heq => ?_, fun hmessage => absurd hmessage hother.2⟩
      cases heq
      exact nofun
    · have hother : BuildCause.emptyExpression.message ≠ "operands are missing an operator" := by
        decide
      refine ⟨hother, nofun, fun fault heq => ?_, fun _ => rfl⟩
      cases heq
      exact nofun

theorem stages_agree_hollow :
    (∃ ts, scan "(())" = .ok ts) ∧ ∃ e, compile "(())" Flags.empty = .error e ∧
      e.message = "expression is empty" ∧ e.position = 0 := by
  obtain ⟨-, -, hfaults, hempty⟩ := stages_agree "(())" Flags.empty
  obtain ⟨e, he, hmessage⟩ := hempty.mpr ⟨2, by decide, rfl⟩
  exact ⟨⟨_, rfl⟩, e, he, hmessage, (hfaults e he).2.2.2 hmessage⟩

end PatternAutomata
