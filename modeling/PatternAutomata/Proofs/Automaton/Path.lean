import PatternAutomata.Proofs.Automaton.Run
import PatternAutomata.Proofs.Automaton.Shape

/-!
# Reading along paths

A path is a list of steps, each of them out of the state that the steps before it lead
to.  It spells the texts of those of its steps that read something.  So a walk is what is
left of a path when only its ends and its word are kept (`walk_iff_exists_path`).

The set of states after a word holds exactly the ends of the paths from the start that
spell the word (`run_exact`).  Kinds of labels do not count, and a step that reads a token
without text is not a silent step.
-/

namespace PatternAutomata

open Std (ExtTreeSet)

/-! ## Paths -/

/-- A list of steps leads from one state to another. -/
inductive Path (g : Graph) : Nat → List Transition → Nat → Prop where
  | nil (id : Nat) : Path g id [] id
  | cons {id last : Nat} {t : Transition} {ts : List Transition} (mem : t ∈ g.transitions id)
      (rest : Path g t.target ts last) : Path g id (t :: ts) last

/-- The texts of the steps that read something, in order. -/
def spelled (ts : List Transition) : List String :=
  (ts.filter fun t => !t.isEpsilon).map fun t => t.label.text

theorem spelled_cons (t : Transition) (ts : List Transition) :
    spelled (t :: ts) = t.word ++ spelled ts := by
  rw [spelled, spelled, List.filter_cons, Transition.word]
  cases t.isEpsilon <;> rfl

theorem Path.walk {g : Graph} {source last : Nat} {ts : List Transition}
    (path : Path g source ts last) : Walk g source (spelled ts) last := by
  induction path with
  | nil id => exact .here id
  | cons mem _ ih =>
    rw [spelled_cons]
    exact ih.step mem

/-- There is a walk that spells a word if and only if a path does. -/
theorem walk_iff_exists_path {g : Graph} {source last : Nat} {w : List String} :
    Walk g source w last ↔ ∃ ts, Path g source ts last ∧ spelled ts = w := by
  constructor
  · intro walk
    induction walk using Walk.stepwise with
    | here => exact ⟨[], .nil last, rfl⟩
    | @step id t word mem _ ih =>
      obtain ⟨ts, path, hspelled⟩ := ih
      exact ⟨t :: ts, .cons mem path, by rw [spelled_cons, hspelled]⟩
  · rintro ⟨ts, path, rfl⟩
    exact path.walk

/-- If steps lead to states, then so do walks. -/
theorem Walk.last_lt {g : Graph} {source last : Nat} {w : List String}
    (h : ∀ id, ∀ t ∈ g.transitions id, t.target < g.size) (hsource : source < g.size)
    (walk : Walk g source w last) : last < g.size := by
  revert hsource
  induction walk using Walk.stepwise with
  | here => exact fun hlast => hlast
  | @step id t word mem _ ih => exact fun _ => ih (h id t mem)

namespace Automaton

variable {a : Automaton} {v w : List String} {q : Nat}

/-! ## The set after a word -/

theorem mem_run_iff_path :
    q ∈ a.run w ↔ ∃ path, Path a.graph a.start path q ∧ spelled path = w :=
  mem_run_iff.trans walk_iff_exists_path

/-- No state is left exactly if no path spells the word. -/
theorem run_eq_empty_iff :
    a.run w = ∅ ↔ ¬∃ path q, Path a.graph a.start path q ∧ spelled path = w := by
  rw [ExtTreeSet.eq_empty_iff_forall_not_mem]
  simp only [mem_run_iff_path]
  rw [exists_comm, not_exists]

/-- Where no state is left, none comes back. -/
theorem run_append_of_run_eq_empty (h : a.run v = ∅) (w : List String) : a.run (v ++ w) = ∅ := by
  rw [ExtTreeSet.eq_empty_iff_forall_not_mem] at h ⊢
  intro q hq
  obtain ⟨p, first, -⟩ := (mem_run_iff.mp hq).exists_of_append
  exact h p (mem_run_iff.mpr first)

/-- The set after a word holds exactly the ends of the paths from the start that spell it,
and these are states.  It is empty if and only if no path spells the word, and then it is
empty for all that begins with the word. -/
theorem run_exact (h : a.Built) (w : List String) :
    (∀ q, q ∈ a.run w ↔ ∃ path, Path a.graph a.start path q ∧ spelled path = w) ∧
    (a.run w = ∅ ↔ ¬∃ path q, Path a.graph a.start path q ∧ spelled path = w) ∧
    (∀ before label behind, w = before ++ label :: behind →
      (¬∃ path q, Path a.graph a.start path q ∧ spelled path = before ++ [label]) →
        a.run w = ∅) ∧
    ∀ q ∈ a.run w, q < a.stateCount := by
  have hwell := h.wellShaped
  refine ⟨fun _ => mem_run_iff_path, run_eq_empty_iff, ?_, fun q hq => ?_⟩
  · intro before label behind hword hstuck
    rw [hword, List.append_cons]
    exact run_append_of_run_eq_empty (run_eq_empty_iff.mpr hstuck) behind
  · exact (mem_run_iff.mp hq).last_lt hwell.target_lt hwell.start_lt

/-- A choice between a letter and an escape of the same text, and a letter without text
behind it. -/
def sameTexts : Automaton :=
  ⟨"", Flags.empty, 4, 7, ⟨#[
    ⟨0, [⟨⟨.literal, "\\d", 0⟩, 1⟩]⟩,
    ⟨1, [⟨Token.epsilon, 5⟩]⟩,
    ⟨2, [⟨⟨.escape, "d", 2⟩, 3⟩]⟩,
    ⟨3, [⟨Token.epsilon, 5⟩]⟩,
    ⟨4, [⟨Token.epsilon, 0⟩, ⟨Token.epsilon, 2⟩]⟩,
    ⟨5, [⟨Token.epsilon, 6⟩]⟩,
    ⟨6, [⟨⟨.literal, "", 5⟩, 7⟩]⟩,
    ⟨7, []⟩]⟩⟩

/-- Both operands of the choice are read by one label, and the empty text is a label. -/
theorem run_exact_sameTexts :
    build [⟨.literal, "\\d", 0⟩, ⟨.escape, "d", 2⟩, ⟨.union, "|", 4⟩, ⟨.literal, "", 5⟩,
        ⟨.concat, "", 5⟩] Flags.empty = .ok sameTexts ∧
      1 ∈ sameTexts.run ["\\d"] ∧ 3 ∈ sameTexts.run ["\\d"] ∧ 7 ∈ sameTexts.run ["\\d", ""] := by
  have hbuild : build [⟨.literal, "\\d", 0⟩, ⟨.escape, "d", 2⟩, ⟨.union, "|", 4⟩,
      ⟨.literal, "", 5⟩, ⟨.concat, "", 5⟩] Flags.empty = .ok sameTexts := rfl
  have hbuilt : sameTexts.Built := .inl ⟨_, _, hbuild⟩
  have hone := (run_exact hbuilt ["\\d"]).1
  have htwo := (run_exact hbuilt ["\\d", ""]).1
  refine ⟨hbuild, (hone 1).mpr ⟨[⟨Token.epsilon, 0⟩, ⟨⟨.literal, "\\d", 0⟩, 1⟩], ?_, by decide⟩,
    (hone 3).mpr ⟨[⟨Token.epsilon, 2⟩, ⟨⟨.escape, "d", 2⟩, 3⟩], ?_, by decide⟩,
    (htwo 7).mpr ⟨[⟨Token.epsilon, 2⟩, ⟨⟨.escape, "d", 2⟩, 3⟩, ⟨Token.epsilon, 5⟩,
      ⟨Token.epsilon, 6⟩, ⟨⟨.literal, "", 5⟩, 7⟩], ?_, by decide⟩⟩
  · exact .cons (by decide) (.cons (by decide) (.nil 1))
  · exact .cons (by decide) (.cons (by decide) (.nil 3))
  · exact .cons (by decide) (.cons (by decide) (.cons (by decide) (.cons (by decide)
      (.cons (by decide) (.nil 7)))))

end Automaton

end PatternAutomata
