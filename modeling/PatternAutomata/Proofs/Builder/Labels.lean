import PatternAutomata.Proofs.Automaton.Shape
import PatternAutomata.Proofs.Builder.Relabel
import PatternAutomata.Proofs.Rpn.Contents
import PatternAutomata.Proofs.Scan.Inverse

/-!
# The labels of an automaton

A step of an automaton reads nothing, or it reads an operand of the postorder that the
automaton was built from (`label_of_build`).  The builder puts no other token into a
label.  This need not be followed through its operations, since what it does with other
tokens is known.  A postorder stays the same if all other tokens are changed, so its
automaton stays the same if all labels with other tokens are changed, and there are
none.

The postorder of a pattern holds the operands of the pattern and no others, so a
compiled automaton reads literals and escapes as a scan gives them
(`legible_of_compile`).
-/

namespace PatternAutomata

variable {p : String} {flags : Flags} {a : Automaton} {ts rpn : List Token} {q : Nat}
variable {t : Transition}

/-! ## Behind a postorder -/

/-- A token, moved to another place unless it is one of some tokens. -/
def Token.expel (ts : List Token) (t : Token) : Token :=
  if t ∈ ts then t else { t with position := t.position + 1 }

theorem Token.kind_expel (ts : List Token) (t : Token) : (t.expel ts).kind = t.kind := by
  unfold expel
  split <;> rfl

theorem Token.expel_eq_self_iff {t : Token} : t.expel ts = t ↔ t ∈ ts := by
  unfold expel
  by_cases h : t ∈ ts
  · simp [h]
  · rw [if_neg h, iff_false_right h]
    intro heq
    exact Nat.succ_ne_self _ (congrArg Token.position heq)

/-- A token that is not in the postorder is in no label. -/
theorem relabel_expel (h : build rpn flags = .ok a) : a.relabel (Token.expel rpn) = a := by
  have hsame : rpn.map (Token.expel rpn) = rpn := by
    simpa using List.map_congr_left fun t ht => Token.expel_eq_self_iff.mpr ht
  rcases build_map_cases (fun t _ => Token.kind_expel rpn t) flags with ⟨b, hb, hb'⟩ | ⟨c, hc, -⟩
  · rw [h, Except.ok.injEq] at hb
    rw [hsame, h, Except.ok.injEq, ← hb] at hb'
    exact hb'.symm
  · rw [h] at hc
    cases hc

/-- A step reads nothing, or an operand of the postorder. -/
theorem label_of_build (h : build rpn flags = .ok a) (ht : t ∈ a.transitions q) :
    t.label = Token.epsilon ∨ t.label.kind.isOperand = true ∧ t.label ∈ rpn := by
  rcases (wellShaped_of_build h).slim q (Graph.lt_size_of_mem ht) with
    ⟨u, hu, hoperand⟩ | ⟨-, hsilent, -⟩
  · obtain rfl := List.mem_singleton.mp (hu ▸ ht)
    refine .inr ⟨hoperand, ?_⟩
    have hsteps : (a.transitions q).map (.relabel (Token.expel rpn)) = a.transitions q := by
      change (a.graph.transitions q).map _ = a.graph.transitions q
      rw [← Graph.transitions_relabel]
      exact congrArg (·.transitions q) (relabel_expel h)
    rw [hu, List.map_singleton, List.singleton_inj] at hsteps
    have hlabel : t.label.relabel (Token.expel rpn) = t.label := congrArg Transition.label hsteps
    rw [Token.relabel_of_isOperand _ hoperand] at hlabel
    exact Token.expel_eq_self_iff.mp hlabel
  · exact .inl (hsilent t ht)

/-! ## Behind a pattern -/

/-- A label as a compiled automaton has it: the empty one, or a literal or an escape as a
scan gives them. -/
def Token.Legible (t : Token) : Prop :=
  t = Token.epsilon ∨ t.kind.isOperand = true ∧ t.Canonical

/-- The labels of a compiled automaton are legible. -/
theorem legible_of_compile (h : compile p flags = .ok a) (ht : t ∈ a.transitions q) :
    t.label.Legible := by
  obtain ⟨ts, rpn, b, hscan, hordered, hbuild, rfl⟩ := compile_eq_ok h
  refine (label_of_build hbuild ht).imp_right fun ⟨hoperand, hmem⟩ => ⟨hoperand, ?_⟩
  obtain ⟨-, -, hwritable⟩ := body_of_scan hscan
  rcases Rpn.mem_ofTokens hordered hmem with ⟨hbody, -⟩ | ⟨u, -, -, hjoint⟩
  · exact hwritable.canonical _ hbody
  · rw [hjoint] at hoperand
    cases hoperand

end PatternAutomata
