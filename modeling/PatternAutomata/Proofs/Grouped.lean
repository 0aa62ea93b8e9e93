import Mathlib.Logic.Function.Iterate
import PatternAutomata.Proofs.Automaton.Shape
import PatternAutomata.Proofs.Builder.Relabel
import PatternAutomata.Proofs.Scan.Grouped
import PatternAutomata.Proofs.Stages

/-!
# Redundant groups

Parentheses around a whole pattern change nothing, however ill its operators are
placed and however often they are put there (`compile_grouped`).  Its postorder stays
the same, one byte further to the right for each pair.  So the automaton is the same
but for the offsets in its labels, and so is the fault but for its own offset.  Only
an empty expression is told at the start, wherever it stands.
-/

namespace PatternAutomata

variable {p q r : String} {flags : Flags} {ts rpn : List Token} {m n : Nat}

/-! ## Further to the right -/

theorem blamedPosition_shift (h : rpn ≠ []) (n : Nat) :
    blamedPosition (.shift n) rpn = blamedPosition id rpn + n := by
  obtain ⟨t, ht⟩ := Option.ne_none_iff_exists'.mp (mt blamed_eq_none_iff.mp h)
  rw [blamedPosition, blamedPosition, ht]
  rfl

theorem Automaton.relabel_shift_zero (a : Automaton) : a.relabel (.shift 0) = a := a.relabel_id

theorem Automaton.relabel_shift_shift (m n : Nat) (a : Automaton) :
    (a.relabel (.shift m)).relabel (.shift n) = a.relabel (.shift (m + n)) := by
  have hshift : Token.shift n ∘ Token.shift m = Token.shift (m + n) := by
    funext t
    exact congrArg (Token.mk t.kind t.value) (Nat.add_assoc t.position m n)
  rw [relabel_relabel (Token.kind_shift m), hshift]

/-! ## The same outcome -/

/-- The offset that a fault is told at, which is 0 for an empty expression. -/
def BuildCause.told (c : BuildCause) (position : Nat) : Nat :=
  match c with
  | emptyExpression => 0
  | _ => position

theorem BuildCause.told_add {c : BuildCause} {position position' : Nat}
    (h : c.told position = c.told position') (n : Nat) :
    c.told (position + n) = c.told (position' + n) := by
  cases c with
  | emptyExpression => rfl
  | _ => exact congrArg (· + n) h

/-- A fault further to the right, by its message. -/
theorem BuildCause.fault_told_add (c : BuildCause) (position n : Nat) :
    c.fault (c.told (position + n)) = { c.fault (c.told position) with
      position := if c.message = "expression is empty" then 0 else c.told position + n } := by
  cases c with
  | emptyExpression => rfl
  | missingOperand | missingOperator | brokenFragment =>
    rw [if_neg (by decide)]
    rfl

theorem BuildCause.told_eq_zero {c : BuildCause} (h : c.message = "expression is empty")
    (position : Nat) : c.told position = 0 := by
  cases c with
  | emptyExpression => rfl
  | missingOperand | missingOperator | brokenFragment => exact absurd h (by decide)

/-- Two patterns have the same outcome behind their scans, the second one further to the
right. -/
inductive SameOutcome (flags : Flags) (n : Nat) (p q : String) : Prop where
  | made (a : Automaton) (first : compile p flags = .ok a)
      (second : compile q flags = .ok { a.relabel (.shift n) with pattern := q })
  | failed (cause : BuildCause) (position : Nat)
      (first : compile p flags = .error ⟨p, .building (cause.fault (cause.told position))⟩)
      (second : compile q flags = .error ⟨q, .building (cause.fault (cause.told (position + n)))⟩)

namespace SameOutcome

theorem refl (h : scan p = .ok ts) (flags : Flags) : SameOutcome flags 0 p p := by
  obtain ⟨rpn, hordered⟩ := exists_ofTokens_of_scan h
  obtain ⟨a, hbuild⟩ | ⟨t, -, hbuild⟩ | ⟨-, hbuild⟩ := build_cases hordered flags
  · have hcompile := compile_of_stages h hordered hbuild
    refine .made _ hcompile ?_
    rw [hcompile, Automaton.relabel_shift_zero]
  · have hcompile := compile_of_build_error h hordered hbuild
    exact .failed .missingOperand t.position hcompile hcompile
  · have hcompile := compile_of_build_error h hordered hbuild
    exact .failed .emptyExpression 0 hcompile hcompile

theorem trans (h : SameOutcome flags m p q) (h' : SameOutcome flags n q r) :
    SameOutcome flags (m + n) p r := by
  cases h with
  | made a first middle =>
    cases h' with
    | made b middle' last =>
      rw [middle, Except.ok.injEq] at middle'
      refine .made a first ?_
      rw [last, ← middle', ← Automaton.relabel_shift_shift]
      rfl
    | failed cause position middle' last =>
      rw [middle] at middle'
      cases middle'
  | failed cause position first middle =>
    cases h' with
    | made b middle' last =>
      rw [middle] at middle'
      cases middle'
    | failed cause' position' middle' last =>
      rw [middle, Except.error.injEq, CompileError.mk.injEq, StageFault.building.injEq,
        BuildCause.fault_inj] at middle'
      obtain ⟨-, rfl, htold⟩ := middle'
      refine .failed cause position first ?_
      rw [last, ← BuildCause.told_add htold, Nat.add_assoc]

end SameOutcome

/-! ## Parentheses around a pattern -/

/-- The postorder of a pattern in parentheses is that of the pattern, one byte further to
the right. -/
theorem ofTokens_grouped_of_scan (h : scan p = .ok ts) : ∃ rpn us,
    Rpn.ofTokens ts = .ok rpn ∧ scan (grouped p) = .ok us ∧
      Rpn.ofTokens us = .ok (rpn.map (.shift 1)) := by
  obtain ⟨rpn, hordered⟩ := exists_ofTokens_of_scan h
  obtain ⟨us, rfl, hus, hscan⟩ := scan_grouped h
  obtain ⟨rpn', hordered'⟩ := exists_ofTokens_of_scan hscan
  refine ⟨rpn, _, hordered, hscan, ?_⟩
  rw [hordered', Rpn.ofTokens_grouped hus rfl rfl rfl rfl hordered hordered']

/-- One pair of parentheses changes nothing. -/
theorem sameOutcome_grouped (h : scan p = .ok ts) (flags : Flags) :
    SameOutcome flags 1 p (grouped p) := by
  obtain ⟨rpn, us, hordered, hscan, hordered'⟩ := ofTokens_grouped_of_scan h
  have hmap := build_map_cases (fun t (_ : t ∈ rpn) => Token.kind_shift 1 t) flags
  obtain ⟨a, hbuild⟩ | ⟨t, ht, hbuild⟩ | ⟨rfl, hbuild⟩ := build_cases hordered flags
  · obtain ⟨b, hbuild', hshifted⟩ | ⟨cause, hbuild', -⟩ := hmap
    · rw [hbuild] at hbuild'
      cases hbuild'
      have hcompile := compile_of_stages hscan hordered' hshifted
      exact .made _ (compile_of_stages h hordered hbuild) hcompile
    · rw [hbuild] at hbuild'
      cases hbuild'
  · obtain ⟨b, hbuild', -⟩ | ⟨cause, hbuild', hshifted⟩ := hmap
    · rw [hbuild] at hbuild'
      cases hbuild'
    · rw [hbuild, Except.error.injEq, BuildCause.fault_inj] at hbuild'
      obtain ⟨rfl, hposition⟩ := hbuild'
      rw [blamedPosition_shift (List.ne_nil_of_mem ht), ← hposition] at hshifted
      exact .failed .missingOperand t.position (compile_of_build_error h hordered hbuild)
        (compile_of_build_error hscan hordered' hshifted)
  · exact .failed .emptyExpression 0 (compile_of_build_error h hordered hbuild)
      (compile_of_build_error hscan hordered' hbuild)

theorem exists_scan_iterate_grouped (h : scan p = .ok ts) (n : Nat) :
    ∃ us, scan (grouped^[n] p) = .ok us := by
  induction n with
  | zero => exact ⟨ts, h⟩
  | succ n ih =>
    obtain ⟨us, hus⟩ := ih
    obtain ⟨vs, -, -, hvs⟩ := scan_grouped hus
    rw [Function.iterate_succ_apply']
    exact ⟨_, hvs⟩

/-- Any number of pairs of parentheses changes nothing. -/
theorem sameOutcome_iterate_grouped (h : scan p = .ok ts) (flags : Flags) (n : Nat) :
    SameOutcome flags n p (grouped^[n] p) := by
  induction n with
  | zero => exact .refl h flags
  | succ n ih =>
    obtain ⟨us, hus⟩ := exists_scan_iterate_grouped h n
    rw [Function.iterate_succ_apply']
    exact ih.trans (sameOutcome_grouped hus flags)

/-- A pattern that is scanned is scanned in any number of parentheses, and compiles there
if and only if it compiles by itself.  The automaton is the same with its labels further
to the right, so the dumps are equal.  The fault is the same further to the right, unless
the expression is empty, which is told at the start. -/
theorem compile_grouped (h : scan p = .ok ts) (n : Nat) (flags : Flags) :
    (∃ us, scan (grouped^[n] p) = .ok us) ∧
    ((∃ a, compile (grouped^[n] p) flags = .ok a) ↔ ∃ a, compile p flags = .ok a) ∧
    (∀ a, compile p flags = .ok a → ∃ b, compile (grouped^[n] p) flags = .ok b ∧
      b = { a.relabel (.shift n) with pattern := grouped^[n] p } ∧ b.dump = a.dump) ∧
    ∀ e, compile p flags = .error e → ∃ fault, e = ⟨p, .building fault⟩ ∧
      (fault.message = "expression is empty" → fault.position = 0) ∧
      compile (grouped^[n] p) flags = .error ⟨grouped^[n] p, .building
        { fault with position :=
            if fault.message = "expression is empty" then 0 else fault.position + n }⟩ := by
  refine ⟨exists_scan_iterate_grouped h n, ?_⟩
  cases sameOutcome_iterate_grouped h flags n with
  | made a first second =>
    rw [first, second]
    refine ⟨iff_of_true ⟨_, rfl⟩ ⟨_, rfl⟩, fun b hb => ⟨_, rfl, ?_⟩, nofun⟩
    cases hb
    exact ⟨rfl, a.dump_relabel (Token.kind_shift n) fun _ => rfl⟩
  | failed cause position first second =>
    rw [first, second]
    refine ⟨iff_of_false nofun nofun, nofun, fun e he => ⟨_, (Except.error.inj he).symm, ?_, ?_⟩⟩
    · exact fun hempty => BuildCause.told_eq_zero hempty position
    · rw [cause.fault_told_add]
      rfl

theorem compile_grouped_twice :
    (∃ b, compile "((a*+))" Flags.empty = .ok b ∧ b.dump = starPlusAutomaton.dump) ∧
      compile "((*))" Flags.empty =
        .error ⟨"((*))", .building (BuildCause.missingOperand.fault 2)⟩ := by
  have hscan : ∃ ts, scan "a*+" = .ok ts := ⟨_, rfl⟩
  have hscan' : ∃ ts, scan "*" = .ok ts := ⟨_, rfl⟩
  have hcompile : compile "a*+" Flags.empty = .ok starPlusAutomaton := rfl
  obtain ⟨ts, hscan⟩ := hscan
  obtain ⟨us, hscan'⟩ := hscan'
  obtain ⟨-, -, hmade, -⟩ := compile_grouped hscan 2 Flags.empty
  obtain ⟨-, -, -, hfault⟩ := compile_grouped hscan' 2 Flags.empty
  obtain ⟨b, hb, -, hdump⟩ := hmade _ hcompile
  obtain ⟨fault, heq, -, hgrouped⟩ := hfault ⟨"*", .building (BuildCause.missingOperand.fault 0)⟩ rfl
  cases heq
  exact ⟨⟨b, hb, hdump⟩, hgrouped⟩

end PatternAutomata
