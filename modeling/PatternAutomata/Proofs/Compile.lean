import PatternAutomata.Compile
import PatternAutomata.Proofs.Automaton.Run
import PatternAutomata.Proofs.Builder.Language
import PatternAutomata.Proofs.Rpn.Surplus
import PatternAutomata.Proofs.Scan.Cuts

/-!
# Compiling a pattern, from end to end

A text compiles if and only if it is a pattern (`compile_ok_iff_pattern`), and its
automaton accepts exactly the words that the pattern stands for
(`accepts_iff_mem_language`).

No stage checks the grammar by itself.  A pattern is scanned into tokens that derive
an expression, these are put into its postorder, and the builder makes an automaton
of it.  For the other direction, an automaton comes from a postorder that spells an
expression.  Such a postorder has surplus one, so its tokens derive an expression,
and what tokens derive, their texts derive.

A word of single characters never holds the label of an escape.  On such words an
escape might as well stand for nothing at all.
-/

namespace PatternAutomata

variable {p : String} {flags : Flags} {a : Automaton}

/-- A compiled automaton has gone through all three stages. -/
theorem compile_eq_ok (h : compile p flags = .ok a) :
    ∃ ts rpn b, scan p = .ok ts ∧ Rpn.ofTokens ts = .ok rpn ∧ build rpn flags = .ok b ∧
      a = { b with pattern := p } := by
  rw [compile_eq] at h
  obtain ⟨ts, hscan, h⟩ := bind_eq_ok_iff.mp h
  obtain ⟨rpn, hordered, h⟩ := bind_eq_ok_iff.mp h
  obtain ⟨b, hbuild, h⟩ := bind_eq_ok_iff.mp h
  injection h with h
  exact ⟨ts, rpn, b, mapError_eq_ok_iff.mp hscan, mapError_eq_ok_iff.mp hordered,
    mapError_eq_ok_iff.mp hbuild, h.symm⟩

/-- What goes through all three stages compiles. -/
theorem compile_of_stages {ts rpn : List Token} {b : Automaton} (hscan : scan p = .ok ts)
    (hordered : Rpn.ofTokens ts = .ok rpn) (hbuild : build rpn flags = .ok b) :
    compile p flags = .ok { b with pattern := p } := by
  simp only [compile_eq, hscan, hordered, hbuild, mapError_ok, ok_bind]
  rfl

/-- What a scan rejects does not compile. -/
theorem compile_of_scan_error {fault : ScanFault} (h : scan p = .error fault) (flags : Flags) :
    compile p flags = .error ⟨p, .scanning fault⟩ := by
  rw [compile_eq, h]
  rfl

/-- What the builder rejects does not compile. -/
theorem compile_of_build_error {ts rpn : List Token} {fault : BuildFault}
    (hscan : scan p = .ok ts) (hordered : Rpn.ofTokens ts = .ok rpn)
    (hbuild : build rpn flags = .error fault) :
    compile p flags = .error ⟨p, .building fault⟩ := by
  simp only [compile_eq, hscan, hordered, hbuild, mapError_ok, ok_bind]
  rfl

/-- The tokens behind a compiled automaton derive an expression, whose language the
automaton accepts. -/
theorem derives_of_compile (h : compile p flags = .ok a) :
    ∃ ts e, scan p = .ok ts ∧ Derives .choice (Rpn.body ts) e ∧
      ∀ w, a.accepts w = true ↔ w ∈ e.language := by
  obtain ⟨ts, rpn, b, hscan, hordered, hbuild, rfl⟩ := compile_eq_ok h
  obtain ⟨e, region, hspelled, hpart⟩ := part_of_build hbuild
  -- The tokens derive some expression, and the postorder of it spells no other.
  obtain ⟨d, hd⟩ := Rpn.derives_of_surplus hordered (Expr.surplus_of_ofRpn? hspelled)
  rw [Rpn.ofTokens_of_derives hd] at hordered
  injection hordered with hordered
  rw [← hordered, Expr.ofRpn?_postorder hd.kinded] at hspelled
  injection hspelled with hspelled
  subst hspelled
  exact ⟨ts, d, hscan, hd, fun w => Automaton.accepts_iff.trans hpart.mem_iff.symm⟩

/-- A text compiles if and only if it is a pattern, whatever the flags are. -/
theorem compile_ok_iff_pattern (p : String) (flags : Flags) :
    (∃ a, compile p flags = .ok a) ↔ Pattern .choice p.toList := by
  constructor
  · rintro ⟨a, h⟩
    obtain ⟨ts, e, hscan, hderives, -⟩ := derives_of_compile h
    exact pattern_of_scan hscan hderives
  · intro h
    obtain ⟨L, hL⟩ := exists_denotes escapeLabel h
    obtain ⟨ts, e, hscan, hderives, -⟩ := scan_of_denotes hL
    obtain ⟨a, hbuild⟩ := exists_build_eq_ok (Expr.ofRpn?_postorder hderives.kinded) flags
    exact ⟨_, compile_of_stages hscan (Rpn.ofTokens_of_derives hderives) hbuild⟩

/-- A compiled automaton accepts exactly the words of the one language that its
pattern denotes, and on words of single characters the escapes of the pattern might
as well stand for no word. -/
theorem accepts_iff_mem_language (h : compile p flags = .ok a) :
    ∃ L, Denotes escapeLabel .choice p.toList L ∧
      (∀ M, Denotes escapeLabel .choice p.toList M → M = L) ∧
      (∀ w, a.accepts w = true ↔ w ∈ L) ∧
      ∃ N, Denotes (fun _ => 0) .choice p.toList N ∧
        (∀ M, Denotes (fun _ => 0) .choice p.toList M → M = N) ∧
        ∀ text, a.accepts (Automaton.word text) = true ↔ Automaton.word text ∈ N := by
  obtain ⟨ts, e, hscan, hderives, haccepts⟩ := derives_of_compile h
  obtain ⟨L, hL⟩ := exists_denotes escapeLabel (pattern_of_scan hscan hderives)
  have hlanguage : e.language = L := by
    obtain ⟨us, d, hscan', hd, rfl⟩ := scan_of_denotes hL
    rw [hscan] at hscan'
    injection hscan' with hscan'
    subst hscan'
    rw [Rpn.derives_unique hderives hd, Token.meaning_escapeLabel, Expr.languageWith_text]
  rw [hlanguage] at haccepts
  obtain ⟨N, hN, hagree⟩ := hL.exists_agreeing (n := fun _ => 0) agreeOneByOne_escapeLabel
  refine ⟨L, hL, fun M hM => denotes_unique hM hL, haccepts, N, hN,
    fun M hM => denotes_unique hM hN, fun text => ?_⟩
  rw [haccepts]
  refine hagree _ fun label hlabel => ?_
  obtain ⟨c, -, rfl⟩ := List.mem_map.mp hlabel
  exact String.length_singleton

/-- The automaton of a letter and at least one escape. -/
def escapePlusAutomaton : Automaton :=
  ⟨"a\\d0+", Flags.empty, 0, 7, ⟨#[
    ⟨0, [⟨⟨.literal, "a", 0⟩, 1⟩]⟩,
    ⟨1, [⟨Token.epsilon, 2⟩]⟩,
    ⟨2, [⟨⟨.escape, "d0", 1⟩, 3⟩]⟩,
    ⟨3, [⟨Token.epsilon, 6⟩]⟩,
    ⟨4, [⟨⟨.escape, "d0", 1⟩, 5⟩]⟩,
    ⟨5, [⟨Token.epsilon, 4⟩, ⟨Token.epsilon, 7⟩]⟩,
    ⟨6, [⟨Token.epsilon, 4⟩, ⟨Token.epsilon, 7⟩]⟩,
    ⟨7, []⟩]⟩⟩

theorem accepts_iff_mem_language_escapePlus :
    compile "a\\d0+" Flags.empty = .ok escapePlusAutomaton ∧
      ∃ L, Denotes escapeLabel .choice "a\\d0+".toList L ∧
        ∀ w, escapePlusAutomaton.accepts w = true ↔ w ∈ L := by
  have hcompile : compile "a\\d0+" Flags.empty = .ok escapePlusAutomaton := rfl
  obtain ⟨L, hL, -, haccepts, -⟩ := accepts_iff_mem_language hcompile
  exact ⟨hcompile, L, hL, haccepts⟩

end PatternAutomata
