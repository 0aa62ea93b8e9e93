import PatternAutomata.Proofs.Automaton.Relabel
import PatternAutomata.Proofs.Builder.Follows

/-!
# Tokens with other contents

A builder looks at the kinds of its tokens and at nothing else.  Their values and
offsets go into labels and faults as they are.  So tokens of the same kinds with
other contents make the same automaton with other labels (`Automaton.relabel`), or
they make the same fault at another offset (`build_relabel`).

The offset of a fault is that of a token, which is the first that the builder
refuses, or the last of all if it refuses none (`blamed`).
-/

namespace PatternAutomata

/-! ## The graph of a builder -/

/-- A builder that follows another one from the start has the same graph with other
labels. -/
theorem Builder.Follows.graph_eq {f : Token → Token} {b b' : Builder}
    (h : Follows .empty id f b b') (hsound : b.Sound) (hsound' : b'.Sound) :
    b'.graph = b.graph.relabel f := by
  refine Graph.eq_of_views hsound'.orderly.id_eq (Graph.id_eq_relabel hsound.orderly.id_eq) ?_
    fun id => ?_
  · rw [Graph.size_relabel]
    exact h.embeds.names_size.symm
  · rw [Graph.transitions_relabel]
    exact h.embeds.transitions_eq id

/-! ## Who is to blame -/

variable {f : Token → Token} {rpn : List Token} {flags : Flags}

/-- The token that a failed construction is told at, if there is any. -/
def blamed (rpn : List Token) : Option Token := (Builder.empty.stuck rpn).or rpn.getLast?

theorem blamed_eq_none_iff : blamed rpn = none ↔ rpn = [] := by
  rw [blamed, Option.or_eq_none_iff, List.getLast?_eq_none_iff]
  refine and_iff_right_of_imp ?_
  rintro rfl
  rfl

theorem mem_of_blamed {t : Token} (h : blamed rpn = some t) : t ∈ rpn := by
  rw [blamed, Option.or_eq_some_iff] at h
  rcases h with h | ⟨-, h⟩
  · exact Builder.mem_of_stuck h
  · exact List.mem_of_getLast? h

/-- The offset of the token to blame after it got another content, or 0 if there is
none. -/
def blamedPosition (f : Token → Token) (rpn : List Token) : Nat :=
  ((blamed rpn).map fun t => (f t).position).getD 0

theorem blamedPosition_of_stuck {t : Token} (h : Builder.empty.stuck rpn = some t) :
    blamedPosition f rpn = (f t).position := by
  rw [blamedPosition, blamed, h]
  rfl

theorem lastPosition_map (h : Builder.empty.stuck rpn = none) (f : Token → Token) :
    lastPosition (rpn.map f) = blamedPosition f rpn := by
  rw [lastPosition, blamedPosition, blamed, h, Option.none_or, List.getLast?_map, Option.map_map]
  rfl

/-! ## The construction -/

/-- Tokens of the same kinds make the same automaton with other labels, or the same
fault at the offset of the same token. -/
theorem build_map_cases (hf : ∀ t ∈ rpn, (f t).kind = t.kind) (flags : Flags) :
    (∃ a, build rpn flags = .ok a ∧ build (rpn.map f) flags = .ok (a.relabel f)) ∨
      ∃ cause : BuildCause, build rpn flags = .error (cause.fault (blamedPosition id rpn)) ∧
        build (rpn.map f) flags = .error (cause.fault (blamedPosition f rpn)) := by
  rw [build_eq, build_eq]
  rcases (Builder.Follows.nothing f).foldlM_cases rfl Builder.sound_empty hf with
    ⟨hstuck, b, b', hrun, hrun', hsound, hfollows⟩ | ⟨t, hstuck, hrun, hrun'⟩
  · have hlast : lastPosition rpn = blamedPosition id rpn := by
      rw [← lastPosition_map hstuck, List.map_id]
    rw [hrun, hrun', ok_bind, ok_bind, hlast, lastPosition_map hstuck]
    rcases hfollows.finish rfl flags (blamedPosition id rpn) (blamedPosition f rpn) with
      ⟨whole, -, hfinish, hfinish'⟩ | hfault
    · rw [hfollows.graph_eq hsound (Builder.sound_of_foldlM hrun')] at hfinish'
      exact .inl ⟨_, hfinish, hfinish'⟩
    · exact .inr hfault
  · rw [hrun, hrun', blamedPosition_of_stuck hstuck, blamedPosition_of_stuck hstuck]
    exact .inr ⟨.missingOperand, rfl, rfl⟩

/-- Tokens of the same kinds are built if and only if the tokens themselves are.  The
automaton is the same with other labels, or the fault is the same and told at the same
token, at 0 if there is no token. -/
theorem build_relabel (hf : ∀ t, (f t).kind = t.kind) (rpn : List Token) (flags : Flags) :
    ((∃ a, build (rpn.map f) flags = .ok a) ↔ ∃ a, build rpn flags = .ok a) ∧
    (∀ a, build rpn flags = .ok a → build (rpn.map f) flags = .ok (a.relabel f)) ∧
    (∀ fault, build rpn flags = .error fault →
      fault.position = ((blamed rpn).map Token.position).getD 0 ∧
      build (rpn.map f) flags = .error
        { fault with position := ((blamed rpn).map fun t => (f t).position).getD 0 }) ∧
    (∀ t, blamed rpn = some t → t ∈ rpn) ∧ (blamed rpn = none ↔ rpn = []) := by
  rcases build_map_cases (fun t (_ : t ∈ rpn) => hf t) flags with
    ⟨a, hbuild, hbuild'⟩ | ⟨cause, hbuild, hbuild'⟩
  · rw [hbuild, hbuild']
    refine ⟨iff_of_true ⟨_, rfl⟩ ⟨_, rfl⟩, fun b hb => ?_, nofun, fun _ => mem_of_blamed,
      blamed_eq_none_iff⟩
    cases hb
    rfl
  · rw [hbuild, hbuild']
    refine ⟨iff_of_false nofun nofun, nofun, fun fault hfault => ?_, fun _ => mem_of_blamed,
      blamed_eq_none_iff⟩
    cases hfault
    exact ⟨rfl, rfl⟩

/-- All tokens look like the label of a silent step, at other offsets. -/
def disguise (t : Token) : Token := ⟨t.kind, "ε", 2 * t.position + 1⟩

theorem build_relabel_disguise :
    (∀ t, (disguise t).kind = t.kind) ∧
      build (Builder.letterPlusEscape.map disguise) Flags.empty =
        .error (BuildCause.missingOperator.fault 7) ∧
      ∃ a, build ([⟨.literal, "a", 0⟩, ⟨.plus, "+", 1⟩].map disguise) Flags.empty = .ok a := by
  have hkind : ∀ t, (disguise t).kind = t.kind := fun _ => rfl
  obtain ⟨-, -, hfault, -⟩ := build_relabel hkind Builder.letterPlusEscape Flags.empty
  obtain ⟨hiff, -⟩ := build_relabel hkind [⟨.literal, "a", 0⟩, ⟨.plus, "+", 1⟩] Flags.empty
  exact ⟨hkind, (hfault _ rfl).2, hiff.mpr ⟨_, rfl⟩⟩

end PatternAutomata
