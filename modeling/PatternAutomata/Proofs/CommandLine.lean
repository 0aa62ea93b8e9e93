import PatternAutomata.CommandLine
import PatternAutomata.Proofs.Debug

/-!
# The command line agrees with the library

The program goes through the first two stages by itself, and through them again when it
compiles the pattern, with the debug flag.  Both times the same comes out, so a run of the
program tells what the library tells (`run_agrees`).  A pattern that is not scanned is
told with nothing printed.  Behind a scan the reordering succeeds, so both lines are
printed.  What is below them depends on the compilation only, and so does the exit code.
The debug flag has no part in it.
-/

namespace PatternAutomata.CommandLine

open Text (Palette)

variable {palette : Palette} {p : String} {flags : Flags} {ts rpn : List Token}

/-- The lines of the kinds of the tokens and of the texts of the postorder. -/
def preamble (ts rpn : List Token) : String :=
  "tokens: " ++ String.intercalate " " (ts.map fun t => t.kind.name) ++ "\n" ++
    ("rpn:    " ++ String.intercalate " " (rpn.map Token.text) ++ "\n")

/-- What a run for a pattern leaves behind, by what the library makes of the pattern. -/
inductive Reports (palette : Palette) (flags : Flags) (p : String) : Outcome → Prop where
  /-- The pattern is not scanned.  Nothing is printed, and the fault is shown. -/
  | unscanned {fault : ScanFault} (scan : scan p = .error fault) :
      Reports palette flags p ⟨1, "",
        (Diagnostic.mk "lexing" fault.message p fault.position).render palette ++ "\n"⟩
  /-- The pattern is scanned and does not compile.  Both lines are printed, and the error
  is shown. -/
  | refused {ts rpn : List Token} {e : CompileError} (scan : scan p = .ok ts)
      (ordered : Rpn.ofTokens ts = .ok rpn) (compile : compile p flags = .error e) :
      Reports palette flags p ⟨1, preamble ts rpn, e.render palette ++ "\n"⟩
  /-- The pattern compiles.  Both lines are printed, and the dump below them. -/
  | dumped {ts rpn : List Token} {a : Automaton} (scan : scan p = .ok ts)
      (ordered : Rpn.ofTokens ts = .ok rpn) (compile : compile p flags = .ok a) :
      Reports palette flags p ⟨0, preamble ts rpn ++ a.dump, ""⟩

theorem report_of_scan_error {fault : ScanFault} (h : scan p = .error fault) :
    report palette p = ⟨1, "",
      (Diagnostic.mk "lexing" fault.message p fault.position).render palette ++ "\n"⟩ := by
  rw [report, h]
  rfl

/-- Behind a scan the reordering succeeds, and the rest is up to the compilation. -/
theorem report_of_scan (hscan : scan p = .ok ts) (hordered : Rpn.ofTokens ts = .ok rpn)
    (flags : Flags) : report palette p =
      match compile p flags with
      | .error e => ⟨1, preamble ts rpn, e.render palette ++ "\n"⟩
      | .ok a => ⟨0, preamble ts rpn ++ a.dump, ""⟩ := by
  rw [report, hscan]
  simp only [hordered]
  rw [compile_withFlags p flags ⟨true⟩]
  -- The flags of an automaton are not dumped.
  cases compile p flags with
  | error e => rfl
  | ok a => rfl

/-- A run for a pattern leaves behind what the library makes of it, with any flags. -/
theorem reports_report (palette : Palette) (flags : Flags) (p : String) :
    Reports palette flags p (report palette p) := by
  cases hscan : scan p with
  | error fault =>
    rw [report_of_scan_error hscan]
    exact .unscanned hscan
  | ok ts =>
    obtain ⟨rpn, hordered⟩ := exists_ofTokens_of_scan hscan
    rw [report_of_scan hscan hordered flags]
    cases hcompile : compile p flags with
    | error e => exact .refused hscan hordered hcompile
    | ok a => exact .dumped hscan hordered hcompile

/-- The exit code tells whether the pattern compiles. -/
theorem Reports.exit_eq_zero_iff {outcome : Outcome} (h : Reports palette flags p outcome) :
    outcome.exit = 0 ↔ ∃ a, compile p flags = .ok a := by
  cases h with
  | unscanned hscan =>
    rw [compile_of_scan_error hscan]
    exact iff_of_false (show (1 : UInt32) ≠ 0 by decide) nofun
  | refused _ _ hcompile =>
    rw [hcompile]
    exact iff_of_false (show (1 : UInt32) ≠ 0 by decide) nofun
  | dumped _ _ hcompile => exact iff_of_true rfl ⟨_, hcompile⟩

/-- A run of the program leaves behind what the library makes of its first argument.  The
reordering of scanned tokens never fails, and the exit code is 0 if and only if the pattern
compiles. -/
theorem run_agrees (palette : Palette) (flags : Flags) (p : String) (rest : List String) :
    Reports palette flags p (run palette (p :: rest)) ∧
    (¬∃ ts fault, scan p = .ok ts ∧ Rpn.ofTokens ts = .error fault) ∧
    ((run palette (p :: rest)).exit = 0 ↔ ∃ a, compile p flags = .ok a) := by
  have hreports : Reports palette flags p (run palette (p :: rest)) :=
    reports_report palette flags p
  refine ⟨hreports, ?_, hreports.exit_eq_zero_iff⟩
  rintro ⟨ts, fault, hscan, hfault⟩
  obtain ⟨rpn, hordered⟩ := exists_ofTokens_of_scan hscan
  rw [hordered] at hfault
  cases hfault

/-- A pattern with a token of every kind that can be scanned, which does not compile. -/
theorem run_agrees_allKinds :
    run .plain ["(\\d1|b)+c?|*"] = ⟨1,
        "tokens: LParen Escape Union Literal RParen Plus Literal Question Union Star End\n" ++
          "rpn:    \\d1 b | + c ? . * |\n",
        "construction error: operator is missing an operand\n" ++
          " | (\\d1|b)+c?|*\n |           ^\n"⟩ ∧
      ¬∃ a, compile "(\\d1|b)+c?|*" Flags.empty = .ok a := by
  have hrun : run .plain ["(\\d1|b)+c?|*"] = ⟨1,
      "tokens: LParen Escape Union Literal RParen Plus Literal Question Union Star End\n" ++
        "rpn:    \\d1 b | + c ? . * |\n",
      "construction error: operator is missing an operand\n" ++
        " | (\\d1|b)+c?|*\n |           ^\n"⟩ := by decide +kernel
  refine ⟨hrun, fun hcompiles => ?_⟩
  have hexit := (run_agrees .plain Flags.empty "(\\d1|b)+c?|*" []).2.2.mpr hcompiles
  rw [hrun] at hexit
  cases hexit

end PatternAutomata.CommandLine
