import PatternAutomata.Proofs.Automaton.Run
import PatternAutomata.Proofs.Builder.Labels
import PatternAutomata.Proofs.Text.Lines

/-!
# What a dump tells

Compiled automata with the same dump are the same, but for the places of their labels,
their patterns and their flags (`dump_determines`).

A dump is read back from the outside in.  Its text is known by its lines, since no label
holds a line feed.  The lines below the first come in groups, one for each state.  The
line of a step tells its label and its target, since the label of a compiled automaton
holds no quote.  In the end all states are listed, since the start leads to all of them.
-/

namespace PatternAutomata

/-! ## What is told -/

/-- What a step is, wherever its label stands. -/
def Transition.content (t : Transition) : (Kind × String) × Nat := (t.label.content, t.target)

/-- A step as its content tells it. -/
def Transition.ofContent (content : (Kind × String) × Nat) : Transition :=
  ⟨⟨content.1.1, content.1.2, 0⟩, content.2⟩

/-- Two automata have the same states and the same steps between them, in the same
order. -/
structure Automaton.SameSteps (a b : Automaton) : Prop where
  /-- They start at the same state. -/
  start_eq : a.start = b.start
  /-- They accept at the same state. -/
  accept_eq : a.accept = b.accept
  /-- They have equally many states. -/
  stateCount_eq : a.stateCount = b.stateCount
  /-- The states have the same names. -/
  id_eq : ∀ q, (a.state? q).map State.id = (b.state? q).map State.id
  /-- The same steps lead out of every state. -/
  content_eq : ∀ q, (a.transitions q).map Transition.content =
    (b.transitions q).map Transition.content

variable {t u : Transition} {a b : Automaton}

/-! ## The line of a step -/

/-- The text of an operand holds letters and digits, and a backslash in front of them. -/
theorem Token.Canonical.notMem_text {t : Token} {c : Char} (h : t.Canonical)
    (hoperand : t.kind.isOperand = true) (hbackslash : c ≠ '\\') (hc : c.isAlphanum = false) :
    c ∉ t.text.toList := by
  rw [canonical_iff_isLexeme, IsLexeme] at h
  generalize t.kind = kind, t.text.toList = cs at h hoperand
  intro hmem
  cases h with
  | literal hletter =>
    rw [List.mem_singleton.mp hmem, hletter] at hc
    cases hc
  | escape hrun =>
    rcases List.mem_cons.mp hmem with heq | hmem
    · exact hbackslash heq
    · rw [hrun c hmem] at hc
      cases hc
  | sign hsign =>
    rw [Kind.sign_of_isOperand hoperand] at hsign
    cases hsign

namespace Automaton

theorem toList_stepLine_silent (h : t.label = Token.epsilon) :
    (stepLine t).toList =
      ' ' :: ' ' :: 'ε' :: ' ' :: '-' :: '>' :: ' ' :: (toString t.target).toList := by
  rw [stepLine, Transition.isEpsilon, h, if_pos Token.isEpsilon_epsilon, String.toList_append]
  rfl

theorem toList_stepLine_operand (h : t.label.kind.isOperand = true) :
    (stepLine t).toList = ' ' :: ' ' :: '\'' :: (t.label.text.toList ++
      '\'' :: ' ' :: '-' :: '>' :: ' ' :: (toString t.target).toList) := by
  have hreads : ¬t.isEpsilon = true := by
    intro heps
    rw [eq_of_beq heps] at h
    cases h
  rw [stepLine, if_neg hreads]
  simp

/-- The line of a step tells what the step is. -/
theorem stepLine_unique (ht : t.label.Legible) (hu : u.label.Legible)
    (h : stepLine t = stepLine u) : t.content = u.content := by
  rw [← String.toList_inj] at h
  rcases ht with ht | ⟨hoperand, ht⟩ <;> rcases hu with hu | ⟨hoperand', hu⟩
  · rw [toList_stepLine_silent ht, toList_stepLine_silent hu] at h
    simp only [List.cons.injEq, true_and] at h
    rw [Transition.content, Transition.content, ht, hu, Text.toString_unique h]
  · rw [toList_stepLine_silent ht, toList_stepLine_operand hoperand'] at h
    simp at h
  · rw [toList_stepLine_operand hoperand, toList_stepLine_silent hu] at h
    simp at h
  · rw [toList_stepLine_operand hoperand, toList_stepLine_operand hoperand'] at h
    simp only [List.cons.injEq, true_and] at h
    obtain ⟨htext, hrest⟩ := Text.cut_unique
      (ht.notMem_text hoperand (by decide) rfl) (hu.notMem_text hoperand' (by decide) rfl) h
    simp only [List.cons.injEq, true_and] at hrest
    rw [Transition.content, Transition.content, Text.toString_unique hrest,
      ht.content_eq hu (String.toList_inj.mp htext)]

theorem lineFeed_notMem_stepLine (ht : t.label.Legible) : '\n' ∉ (stepLine t).toList := by
  have hnumber : '\n' ∉ (toString t.target).toList := Text.notMem_toString rfl _
  rcases ht with ht | ⟨hoperand, ht⟩
  · rw [toList_stepLine_silent ht]
    simpa using hnumber
  · have htext : '\n' ∉ t.label.text.toList := ht.notMem_text hoperand (by decide) rfl
    rw [toList_stepLine_operand hoperand]
    simpa [htext] using hnumber

/-- What stands in the lines of steps tells what the steps are. -/
theorem map_stepLine_unique {ts us : List Transition} (hts : ∀ t ∈ ts, t.label.Legible)
    (hus : ∀ u ∈ us, u.label.Legible) (h : ts.map stepLine = us.map stepLine) :
    ts.map Transition.content = us.map Transition.content := by
  induction ts generalizing us with
  | nil =>
    rw [List.map_eq_nil_iff.mp h.symm]
  | cons t ts ih =>
    cases us with
    | nil => cases h
    | cons u us =>
      rw [List.forall_mem_cons] at hts hus
      rw [List.map_cons, List.map_cons, List.cons.injEq] at h
      rw [List.map_cons, List.map_cons, stepLine_unique hts.1 hus.1 h.1, ih hts.2 hus.2 h.2]

/-! ## The groups of lines -/

/-- The line above the steps of a state. -/
theorem toList_stateLine (q : Nat) : ("state " ++ toString q ++ ":").toList =
    's' :: 't' :: 'a' :: 't' :: 'e' :: ' ' :: ((toString q).toList ++ [':']) := by
  simp

/-- A line belongs to a state and not to a step. -/
def isStateLine (l : String) : Bool := l.toList.head? == some 's'

theorem isStateLine_stateLine (q : Nat) : isStateLine ("state " ++ toString q ++ ":") = true := by
  simp [isStateLine]

theorem isStateLine_stepLine (t : Transition) : isStateLine (stepLine t) = false := by
  unfold stepLine
  split <;> simp [isStateLine]

theorem stateLine_injective : Function.Injective fun q : Nat => "state " ++ toString q ++ ":" := by
  intro q q' h
  rw [← String.toList_inj, toList_stateLine, toList_stateLine] at h
  simp only [List.cons.injEq, true_and] at h
  exact Text.toString_unique (List.append_cancel_right h)

theorem lineFeed_notMem_dumpLines (h : ∀ q, ∀ t ∈ a.transitions q, t.label.Legible) :
    ∀ l ∈ a.dumpLines, '\n' ∉ l.toList := by
  have hnumber : ∀ n : Nat, '\n' ∉ (toString n).toList := Text.notMem_toString rfl
  intro l hl
  rcases List.mem_cons.mp hl with rfl | hl
  · simpa using And.intro (hnumber a.start) (hnumber a.accept)
  · obtain ⟨q, -, hl⟩ := List.mem_flatMap.mp hl
    rcases List.mem_cons.mp hl with rfl | hl
    · simpa using hnumber q
    · obtain ⟨t, ht, rfl⟩ := List.mem_map.mp hl
      exact lineFeed_notMem_stepLine (h q t ht)

/-- The first line of a dump tells the start and the accept. -/
theorem firstLine_unique {m n m' n' : Nat}
    (h : "start: " ++ toString m ++ ", accept: " ++ toString n =
      "start: " ++ toString m' ++ ", accept: " ++ toString n') : m = m' ∧ n = n' := by
  have hlist : ∀ i j : Nat, ("start: " ++ toString i ++ ", accept: " ++ toString j).toList =
      "start: ".toList ++ ((toString i).toList ++ ',' :: (" accept: ".toList ++
        (toString j).toList)) := by
    intro i j
    simp
  rw [← String.toList_inj, hlist, hlist] at h
  obtain ⟨hstart, haccept⟩ := Text.cut_unique (Text.notMem_toString rfl m)
    (Text.notMem_toString rfl m') (List.append_cancel_left h)
  exact ⟨Text.toString_unique hstart, Text.toString_unique (List.append_cancel_left haccept)⟩

theorem isStateLine_of_mem {q : Nat} : ∀ l ∈ (a.transitions q).map stepLine,
    isStateLine l = false := by
  intro l hl
  obtain ⟨t, -, rfl⟩ := List.mem_map.mp hl
  exact isStateLine_stepLine t

/-- Well shaped automata with legible labels have the same steps if their dumps are the
same. -/
theorem sameSteps_of_dump (hwell : a.WellShaped) (hwell' : b.WellShaped)
    (hlegible : ∀ q, ∀ t ∈ a.transitions q, t.label.Legible)
    (hlegible' : ∀ q, ∀ t ∈ b.transitions q, t.label.Legible) (h : a.dump = b.dump) :
    a.SameSteps b := by
  have hlines : a.dumpLines = b.dumpLines :=
    Text.lines_unique (lineFeed_notMem_dumpLines hlegible) (lineFeed_notMem_dumpLines hlegible') h
  rw [dumpLines, dumpLines, List.cons.injEq] at hlines
  obtain ⟨hfirst, hgroups⟩ := hlines
  obtain ⟨hstart, haccept⟩ := firstLine_unique hfirst
  obtain ⟨hreachable, hsteps⟩ := Text.groups_unique isStateLine_stateLine stateLine_injective
    (fun _ => isStateLine_of_mem) (fun _ => isStateLine_of_mem) hgroups
  have hcount : a.stateCount = b.stateCount := by
    have hlength := hwell.reachable_perm.length_eq
    rw [hreachable, hwell'.reachable_perm.length_eq, List.length_range, List.length_range] at hlength
    exact hlength.symm
  refine ⟨hstart, haccept, hcount, fun q => ?_, fun q => ?_⟩
  · rw [hwell.map_id_state?, hwell'.map_id_state?, hcount]
  rcases Nat.lt_or_ge q a.stateCount with hlt | hge
  · -- The start leads to this state, so it is listed.
    have hlisted : q ∈ a.reachable := hwell.reachable_perm.mem_iff.mpr (List.mem_range.mpr hlt)
    exact map_stepLine_unique (hlegible q) (hlegible' q) (hsteps q hlisted)
  · have hnone : a.transitions q = [] := Graph.transitions_of_size_le hge
    have hnone' : b.transitions q = [] := Graph.transitions_of_size_le (by rwa [← show a.graph.size = b.graph.size from hcount])
    rw [hnone, hnone']

/-! ## The same steps -/

/-- A line tells no more of a step than what the step is. -/
theorem stepLine_ofContent (t : Transition) : stepLine (.ofContent t.content) = stepLine t := rfl

theorem SameSteps.stateLines_eq (h : a.SameSteps b) : a.stateLines = b.stateLines := by
  funext q
  have hlines : ∀ ts : List Transition, ts.map stepLine =
      (ts.map Transition.content).map (stepLine ∘ Transition.ofContent) := by
    intro ts
    rw [List.map_map]
    exact List.map_congr_left fun t _ => (stepLine_ofContent t).symm
  rw [stateLines, stateLines, hlines, hlines, h.content_eq]

theorem SameSteps.reachable_eq (h : a.SameSteps b) : a.reachable = b.reachable := by
  have htargets : ∀ ts : List Transition, ts.map Transition.target =
      (ts.map Transition.content).map Prod.snd := by
    intro ts
    rw [List.map_map]
    rfl
  have hsearch : a.graph.targets = b.graph.targets := by
    funext q
    rw [Graph.targets, Graph.targets, htargets, htargets]
    exact congrArg (List.map Prod.snd) (h.content_eq q)
  have hcount : a.graph.size = b.graph.size := h.stateCount_eq
  rw [reachable, reachable, Graph.reachable, Graph.reachable, hsearch, hcount, h.start_eq]

/-- Automata with the same steps have the same dump. -/
theorem SameSteps.dump_eq (h : a.SameSteps b) : a.dump = b.dump := by
  rw [dump, dump, dumpLines, dumpLines, h.start_eq, h.accept_eq, h.reachable_eq, h.stateLines_eq]

end Automaton

/-- Where the same steps lead out of every state there are the same walks. -/
theorem Walk.of_content_eq {g g' : Graph} {m n : Nat} {w : List String}
    (h : ∀ q, (g.transitions q).map Transition.content = (g'.transitions q).map Transition.content)
    (walk : Walk g m w n) : Walk g' m w n := by
  have hstep : ∀ {q t}, t ∈ g.transitions q → ∃ u ∈ g'.transitions q, u.content = t.content := by
    intro q t ht
    have hmem := List.mem_map_of_mem (f := Transition.content) ht
    rw [h] at hmem
    exact List.mem_map.mp hmem
  induction walk with
  | here => exact .here _
  | @silent _ _ t _ mem eps _ ih =>
    obtain ⟨u, hu, hcontent⟩ := hstep mem
    obtain ⟨⟨kind, value, position⟩, target⟩ := t
    obtain ⟨⟨kind', value', position'⟩, target'⟩ := u
    cases hcontent
    exact .silent hu eps ih
  | @read _ _ t _ mem eps _ ih =>
    obtain ⟨u, hu, hcontent⟩ := hstep mem
    obtain ⟨⟨kind, value, position⟩, target⟩ := t
    obtain ⟨⟨kind', value', position'⟩, target'⟩ := u
    cases hcontent
    -- The text of a label does not depend on its place.
    have hwalk := Walk.read hu eps ih
    exact hwalk

/-- Automata with the same steps accept the same words. -/
theorem Automaton.SameSteps.accepts_eq (h : a.SameSteps b) (w : List String) :
    a.accepts w = b.accepts w := by
  rw [Bool.eq_iff_iff, accepts_iff, accepts_iff, h.start_eq, h.accept_eq]
  exact ⟨.of_content_eq h.content_eq, .of_content_eq fun q => (h.content_eq q).symm⟩

/-! ## Compiled automata -/

/-- Two compiled automata have the same dump if and only if they are the same, but for the
places of their labels, their patterns and their flags.  Then they accept the same
words. -/
theorem dump_determines {p q : String} {flags flags' : Flags} (ha : compile p flags = .ok a)
    (hb : compile q flags' = .ok b) : (a.dump = b.dump ↔ a.SameSteps b) ∧
      (a.dump = b.dump → ∀ w, a.accepts w = b.accepts w) := by
  have hsame : a.dump = b.dump → a.SameSteps b :=
    Automaton.sameSteps_of_dump (wellShaped_of_compile ha) (wellShaped_of_compile hb)
      (fun _ _ => legible_of_compile ha) (fun _ _ => legible_of_compile hb)
  exact ⟨⟨hsame, Automaton.SameSteps.dump_eq⟩, fun h => (hsame h).accepts_eq⟩

theorem dump_determines_regrouped : ∃ a b, compile "a\\d1" Flags.empty = .ok a ∧
    compile "(a)(\\d1)" ⟨true⟩ = .ok b ∧ a.dump = b.dump ∧ a.SameSteps b ∧
      ∀ w, a.accepts w = b.accepts w := by
  have hfirst : ∃ a, compile "a\\d1" Flags.empty = .ok a := ⟨_, rfl⟩
  have hsecond : ∃ b, compile "(a)(\\d1)" ⟨true⟩ = .ok b := ⟨_, rfl⟩
  have hdumps : (compile "a\\d1" Flags.empty).toOption.map Automaton.dump =
      (compile "(a)(\\d1)" ⟨true⟩).toOption.map Automaton.dump := by decide +kernel
  obtain ⟨a, ha⟩ := hfirst
  obtain ⟨b, hb⟩ := hsecond
  rw [ha, hb] at hdumps
  have hdump : a.dump = b.dump := Option.some.inj hdumps
  obtain ⟨hiff, haccepts⟩ := dump_determines ha hb
  exact ⟨a, b, ha, hb, hdump, hiff.mp hdump, haccepts hdump⟩

end PatternAutomata
