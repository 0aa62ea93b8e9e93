import PatternAutomata.Proofs.Builder.Inventory
import PatternAutomata.Proofs.Rpn.Conserved
import PatternAutomata.Proofs.Scan.Faults

/-!
# Where labels come from

An automaton reads exactly the operands of its postorder.  An operand stands on one step,
and on twice as many for each pass that is repeated around it, as all that is repeated is
copied.  Nothing else is read (`readingLabels_of_build`), so the alphabet of an automaton
holds exactly the texts of the operands (`mem_alphabet_of_build`).

A pattern has its operands in its postorder, in the same order.  A compiled automaton reads
all of them, and what it reads stands in the pattern at the offset of the label
(`readingLabels_of_compile`).
-/

namespace PatternAutomata

variable {rpn ts : List Token} {flags : Flags} {a : Automaton} {e : Expr} {t : Token} {p : String}

/-! ## Behind a postorder -/

/-- The operands of an expression are those of the tokens that spell it, in their order. -/
theorem Expr.map_fst_occurrences_of_ofRpn? (h : ofRpn? rpn = some e) :
    (e.occurrences 0).map Prod.fst = rpn.filter (·.kind.isOperand) := by
  obtain ⟨hpostorder, hkinded⟩ := postorder_of_ofRpn? h
  rw [map_fst_occurrences hkinded, hpostorder, List.filter_filter]
  refine List.filter_congr fun t _ => ?_
  cases t.kind with
  | _ => rfl

/-- An automaton reads what its expression reads, as often as the expression does. -/
theorem readingLabels_perm (hspelled : Expr.ofRpn? rpn = some e) (h : build rpn flags = .ok a) :
    a.graph.readingLabels.Perm e.labels := by
  obtain ⟨-, hperm⟩ := holds_of_build hspelled h
  rw [Graph.readingLabels_eq, ← Expr.filter_stepLabels (Expr.postorder_of_ofRpn? hspelled).2]
  exact hperm.filter _

/-- Exactly the operands of the postorder are read. -/
theorem mem_readingLabels_iff (h : build rpn flags = .ok a) :
    t ∈ a.graph.readingLabels ↔ t ∈ rpn.filter (·.kind.isOperand) := by
  obtain ⟨e, -, hspelled, -⟩ := part_of_build h
  rw [(readingLabels_perm hspelled h).mem_iff, Expr.mem_labels_iff,
    Expr.map_fst_occurrences_of_ofRpn? hspelled]

/-- The alphabet holds the texts of the labels. -/
theorem Automaton.mem_alphabet_iff {s : String} :
    s ∈ a.alphabet ↔ ∃ t ∈ a.graph.readingLabels, t.text = s := by
  rw [alphabet, Std.ExtTreeSet.mem_ofList, List.contains_iff_mem, List.mem_map]

/-- The labels that an automaton reads are the operands of its postorder, each twice as often
for each repetition around it.  The alphabet is the set of the texts of the operands. -/
theorem readingLabels_of_build (h : build rpn flags = .ok a) :
    ∃ e, Expr.ofRpn? rpn = some e ∧
      (e.occurrences 0).map Prod.fst = rpn.filter (·.kind.isOperand) ∧
      a.graph.readingLabels.Perm
        ((e.occurrences 0).flatMap fun o => List.replicate (2 ^ o.2) o.1) ∧
      ∀ s, s ∈ a.alphabet ↔ ∃ t ∈ rpn, t.kind.isOperand = true ∧ t.text = s := by
  obtain ⟨e, -, hspelled, -⟩ := part_of_build h
  refine ⟨e, hspelled, Expr.map_fst_occurrences_of_ofRpn? hspelled,
    (readingLabels_perm hspelled h).trans e.labels_perm, fun s => ?_⟩
  simp only [Automaton.mem_alphabet_iff, mem_readingLabels_iff h, List.mem_filter, and_assoc]

/-! ## Behind a pattern -/

/-- The mark of the end is no operand. -/
theorem filter_isOperand_body (hscan : scan p = .ok ts) :
    (Rpn.body ts).filter (·.kind.isOperand) = ts.filter (·.kind.isOperand) := by
  obtain ⟨us, rfl, -, -, hwritable⟩ := writable_of_scan hscan
  rw [Rpn.body_append (fun t ht => (hwritable.canonical t ht).kind_ne.2) rfl, List.filter_append]
  exact (List.append_nil _).symm

/-- A compiled automaton reads exactly the operands of its pattern. -/
theorem mem_readingLabels_of_compile (h : compile p flags = .ok a) (hscan : scan p = .ok ts) :
    t ∈ a.graph.readingLabels ↔ t ∈ ts.filter (·.kind.isOperand) := by
  obtain ⟨us, rpn, b, hscan', hordered, hbuild, rfl⟩ := compile_eq_ok h
  rw [hscan, Except.ok.injEq] at hscan'
  subst hscan'
  change t ∈ b.graph.readingLabels ↔ _
  rw [mem_readingLabels_iff hbuild, Rpn.filter_isOperand_ofTokens hordered,
    filter_isOperand_body hscan]

/-- What a compiled automaton reads stands in its pattern, at the offset of the label. -/
theorem splits_of_mem_readingLabels (h : compile p flags = .ok a) (ht : t ∈ a.graph.readingLabels) :
    ∃ before behind, Text.Splits p t.position before (t.text ++ behind) := by
  obtain ⟨ts, rpn, b, hscan, -⟩ := compile_eq_ok h
  rw [mem_readingLabels_of_compile h hscan, ← filter_isOperand_body hscan, List.mem_filter] at ht
  exact splits_of_scan hscan ht.1

/-! ## Both -/

/-- The labels that an automaton reads are the operands of its postorder as they are, each
twice as often for each repetition around it.  The alphabet is the set of their texts.  The
texts of the labels of a compiled automaton stand in its pattern at the offsets of the
labels, and every operand of the pattern labels a step. -/
theorem provenance_of_labels :
    (∀ rpn flags a, build rpn flags = .ok a → ∃ e, Expr.ofRpn? rpn = some e ∧
      (e.occurrences 0).map Prod.fst = rpn.filter (·.kind.isOperand) ∧
      a.graph.readingLabels.Perm
        ((e.occurrences 0).flatMap fun o => List.replicate (2 ^ o.2) o.1) ∧
      ∀ s, s ∈ a.alphabet ↔ ∃ t ∈ rpn, t.kind.isOperand = true ∧ t.text = s) ∧
    ∀ p flags a, compile p flags = .ok a →
      (∀ t ∈ a.graph.readingLabels, ∃ before behind,
        Text.Splits p t.position before (t.text ++ behind)) ∧
      ∃ ts, scan p = .ok ts ∧
        ∀ t ∈ ts, t.kind.isOperand = true → t ∈ a.graph.readingLabels := by
  constructor
  · intro rpn flags a h
    exact readingLabels_of_build h
  · intro p flags a h
    constructor
    · intro t ht
      exact splits_of_mem_readingLabels h ht
    · obtain ⟨ts, rpn, b, hscan, -⟩ := compile_eq_ok h
      refine ⟨ts, hscan, ?_⟩
      intro t ht hoperand
      rw [mem_readingLabels_of_compile h hscan, List.mem_filter]
      exact ⟨ht, hoperand⟩

/-- A repetition within another one, around a token that is passed over. -/
def repeatedEscape : List Token :=
  [⟨.literal, "a", 1⟩, ⟨.plus, "+", 2⟩, ⟨.openParen, "(", 0⟩, ⟨.escape, "d", 3⟩, ⟨.concat, "", 3⟩,
    ⟨.plus, "+", 6⟩]

theorem provenance_of_labels_repeatedEscape :
    (∃ a, build repeatedEscape Flags.empty = .ok a ∧
      a.graph.readingLabels.Perm
        (List.replicate 4 ⟨.literal, "a", 1⟩ ++ List.replicate 2 ⟨.escape, "d", 3⟩) ∧
      "\\d" ∈ a.alphabet) ∧
    ∃ a, compile "(a+\\d)+" Flags.empty = .ok a ∧ ⟨.escape, "d", 3⟩ ∈ a.graph.readingLabels ∧
      ∃ before behind, Text.Splits "(a+\\d)+" 3 before ("\\d" ++ behind) := by
  obtain ⟨hbuild, hcompile⟩ := provenance_of_labels
  constructor
  · obtain ⟨a, h⟩ : ∃ a, build repeatedEscape Flags.empty = .ok a := ⟨_, rfl⟩
    obtain ⟨d, hd, hlabels⟩ : ∃ d, Expr.ofRpn? repeatedEscape = some d ∧
      ((d.occurrences 0).flatMap fun o => List.replicate (2 ^ o.2) o.1) =
        List.replicate 4 ⟨.literal, "a", 1⟩ ++ List.replicate 2 ⟨.escape, "d", 3⟩ := ⟨_, rfl, rfl⟩
    obtain ⟨e, hspelled, -, hperm, halphabet⟩ := hbuild _ _ a h
    obtain rfl := Option.some.inj (hd.symm.trans hspelled)
    rw [hlabels] at hperm
    exact ⟨a, h, hperm, (halphabet _).mpr ⟨⟨.escape, "d", 3⟩, by decide, rfl, rfl⟩⟩
  · obtain ⟨a, h⟩ : ∃ a, compile "(a+\\d)+" Flags.empty = .ok a := ⟨_, rfl⟩
    obtain ⟨hplaced, ts, hscan, hall⟩ := hcompile _ _ a h
    have hfound : ∃ us, scan "(a+\\d)+" = .ok us ∧ ⟨.escape, "d", 3⟩ ∈ us := ⟨_, rfl, by decide⟩
    obtain ⟨us, hus, hmem⟩ := hfound
    obtain rfl := Except.ok.inj (hscan.symm.trans hus)
    exact ⟨a, h, hall _ hmem rfl, hplaced _ (hall _ hmem rfl)⟩

end PatternAutomata
