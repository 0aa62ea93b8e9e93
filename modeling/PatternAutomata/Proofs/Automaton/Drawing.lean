import PatternAutomata.Automaton.Drawing
import PatternAutomata.Proofs.Automaton.Dump
import PatternAutomata.Proofs.Graph.BreadthFirst
import PatternAutomata.Proofs.Graph.Labels
import PatternAutomata.Text.DotString

/-!
# Pictures of automata

A picture of an automaton has one statement for each state, in breadth-first order, and then
one for each step, state by state (`Automaton.Pictured`).  It is faithful if the label of
each edge is a string that stands for the text of the token (`Automaton.Faithful`).

The drawing writes every backslash twice, and nothing else.  So a reader takes the first quote
in a label for its end (`read_quotedLabel`), and sees the label as it is if there is no quote
in it.  Each edge ends where its label ends, so no other way to divide the text into statements
makes up for a label that is cut short (`notMem_of_drawn`).  That gives the main statement,
`faithful_drawing_iff`: a drawing is faithful if and only if no quote is read.
-/

namespace PatternAutomata

/-! ## Labels -/

namespace Text.DotString

variable {c : Char} {cs rest xs text behind : List Char}

/-- A character that begins no pair stands for itself. -/
theorem unquote_cons (hquote : c ≠ '"')
    (hpair : c = '\\' → ∀ r, rest ≠ '\\' :: r ∧ rest ≠ '"' :: r) :
    unquote (c :: rest) = (unquote rest).map fun (text, behind) => (c :: text, behind) := by
  rw [unquote]
  · exact hquote
  · exact fun r hc => (hpair hc r).1
  · exact fun r hc => (hpair hc r).2

/-- What follows a string has no part in it. -/
theorem unquote_append (h : unquote xs = some (text, behind)) (rest : List Char) :
    unquote (xs ++ rest) = some (text, behind ++ rest) := by
  fun_induction unquote xs generalizing text behind with
  | case1 => cases h
  | case2 =>
    cases h
    rfl
  | case3 r ih | case4 r ih =>
    obtain ⟨⟨text, behind⟩, hr, heq⟩ := Option.map_eq_some_iff.mp h
    cases heq
    simp [unquote, ih hr]
  | case5 c r hquote hbackslash hescaped ih =>
    obtain ⟨⟨text, behind⟩, hr, heq⟩ := Option.map_eq_some_iff.mp h
    cases heq
    -- A character stands behind, or the string would not end, so no pair can come about.
    have hne : r ≠ [] := by
      rintro rfl
      cases hr
    obtain ⟨d, r, rfl⟩ := List.exists_cons_of_ne_nil hne
    have hpair : c = '\\' → ∀ u, d :: r ++ rest ≠ '\\' :: u ∧ d :: r ++ rest ≠ '"' :: u := by
      refine fun hc u => ⟨fun hu => hbackslash r hc ?_, fun hu => hescaped r hc ?_⟩
      · rw [(List.cons.inj hu).1]
      · rw [(List.cons.inj hu).1]
    rw [List.cons_append, unquote_cons hquote hpair, ih hr]
    rfl

/-- What follows a written text is left when the text has been read. -/
theorem Spells.read_append {written text : String} (h : Spells written text) (rest : List Char) :
    read (written.toList ++ rest) = some (text.toList, rest) := by
  unfold Spells read at h
  split at h
  · next tail hwritten =>
    rw [hwritten]
    exact unquote_append h rest
  · cases h

/-- A text with its backslashes written twice. -/
def doubled (cs : List Char) : List Char :=
  cs.flatMap fun c => if c = '\\' then ['\\', '\\'] else [c]

/-- A text with its backslashes written twice is read up to its first quote. -/
theorem unquote_doubled (cs rest : List Char) :
    unquote (doubled cs ++ '"' :: rest) = some (cs.takeWhile (· != '"'),
      (doubled (cs.dropWhile (· != '"')) ++ '"' :: rest).tail) := by
  induction cs with
  | nil => rfl
  | cons c cs ih =>
    rw [doubled, List.flatMap_cons, ← doubled]
    by_cases hbackslash : c = '\\'
    · subst hbackslash
      simp [unquote, ih]
    · by_cases hquote : c = '"'
      · subst hquote
        simp [unquote, doubled]
      · have hcons : unquote (c :: (doubled cs ++ '"' :: rest)) = _ :=
          unquote_cons hquote fun h => absurd h hbackslash
        simp [hbackslash, hquote, hcons, ih]

end Text.DotString

namespace Automaton

open Text

/-- A label between the quotes of a drawing. -/
def quotedLabel (label : String) : String := "\"" ++ edgeLabel label ++ "\""

/-- A label is read up to its first quote. -/
theorem read_quotedLabel (label : String) (rest : List Char) :
    DotString.read ((quotedLabel label).toList ++ rest) =
      some (label.toList.takeWhile (· != '"'),
        (DotString.doubled (label.toList.dropWhile (· != '"')) ++ '"' :: rest).tail) := by
  have hlabel : (edgeLabel label).toList = DotString.doubled label.toList := by
    rw [edgeLabel, String.toList_join, List.flatMap_map, DotString.doubled]
    refine List.flatMap_congr fun c _ => ?_
    by_cases hc : c = '\\'
    · rw [if_pos hc, if_pos hc]
      rfl
    · rw [if_neg hc, if_neg hc, String.toList_singleton]
  rw [← DotString.unquote_doubled, quotedLabel, String.toList_append, String.toList_append, hlabel,
    List.append_assoc]
  rfl

/-- A label is read as a whole if and only if there is no quote in it. -/
theorem read_quotedLabel_eq_iff {label : String} {rest behind : List Char} :
    DotString.read ((quotedLabel label).toList ++ rest) = some (label.toList, behind) ↔
      '"' ∉ label.toList ∧ behind = rest := by
  rw [read_quotedLabel, Option.some.injEq, Prod.mk.injEq, List.takeWhile_eq_self_iff]
  have hall : (∀ c ∈ label.toList, (c != '"') = true) ↔ '"' ∉ label.toList := by
    refine ⟨fun h hmem => absurd (h _ hmem) (by decide), fun h c hc => ?_⟩
    rw [bne_iff_ne]
    exact ne_of_mem_of_not_mem hc h
  rw [hall]
  refine and_congr_right fun hnone => ?_
  rw [List.dropWhile_eq_nil_iff.mpr (hall.mpr hnone), eq_comm]
  rfl

theorem spells_quotedLabel_iff {label : String} :
    DotString.Spells (quotedLabel label) label ↔ '"' ∉ label.toList := by
  rw [DotString.Spells, ← List.append_nil (String.toList _), read_quotedLabel_eq_iff]
  exact and_iff_left rfl

/-! ## Pictures -/

/-- The statement that shows a state.  The start is green, and the accept a double circle. -/
inductive ShowsState (a : Automaton) (id : Nat) : String → Prop
  | start (h : id = a.start) :
    ShowsState a id (nodeName id ++ "[label=\"" ++ toString id ++ "\"][fillcolor=green]\n")
  | accept (h : id = a.accept) :
    ShowsState a id (nodeName id ++ "[label=\"" ++ toString id ++ "\" shape=doublecircle]\n")
  | inner (h : id ≠ a.start) (h' : id ≠ a.accept) :
    ShowsState a id (nodeName id ++ "[label=\"" ++ toString id ++
      "\"][fillcolor=\"#EEEEEE\" fontcolor=\"#888888\"]\n")

/-- The statement that shows a step out of a state.  What is written for a label has to do
with its text as `labelled` says. -/
inductive ShowsStep (labelled : String → String → Prop) : Nat × Transition → String → Prop
  | silent {id : Nat} {t : Transition} (h : t.isEpsilon = true) :
    ShowsStep labelled (id, t) (nodeName id ++ " -> " ++ nodeName t.target ++ "[style=dashed]\n")
  | reading {id : Nat} {t : Transition} {written : String} (h : t.isEpsilon = false)
    (hlabel : labelled written t.label.text) :
    ShowsStep labelled (id, t)
      (nodeName id ++ " -> " ++ nodeName t.target ++ "[label=" ++ written ++ "]\n")

/-- The steps out of some states, state by state. -/
def stepsFrom (a : Automaton) (order : List Nat) : List (Nat × Transition) :=
  order.flatMap fun id => (a.transitions id).map (id, ·)

/-- A text shows all states in breadth-first order, and then all steps. -/
def Pictured (labelled : String → String → Prop) (a : Automaton) (text : String) : Prop :=
  ∃ order nodes edges, Search.BreadthFirst a.graph.targets a.start order ∧
    order.Perm (List.range a.stateCount) ∧ List.Forall₂ a.ShowsState order nodes ∧
    List.Forall₂ (ShowsStep labelled) (a.stepsFrom order) edges ∧
    text = drawingHead ++ String.join nodes ++ String.join edges ++ drawingTail

/-- A picture in which every label is a string that stands for the text of its token. -/
def Faithful (a : Automaton) (text : String) : Prop := a.Pictured DotString.Spells text

/-! ## The drawing -/

variable {a : Automaton} {labelled : String → String → Prop} {id : Nat} {t : Transition}
variable {steps : List (Nat × Transition)} {edges : List String}

/-- The line of a state in a drawing. -/
def drawnState (a : Automaton) (id : Nat) : String := (Statement.node id (a.role id)).text ++ "\n"

/-- The line of a step in a drawing. -/
def drawnStep (step : Nat × Transition) : String := (stepStatement step.1 step.2).text ++ "\n"

theorem showsState_drawnState (a : Automaton) (id : Nat) : a.ShowsState id (a.drawnState id) := by
  unfold drawnState role
  split
  · next h =>
    convert ShowsState.start h using 1
    simp [← String.toList_inj, Statement.text, Role.attributes]
  · next h =>
    split
    · next h' =>
      convert ShowsState.accept h' using 1
      simp [← String.toList_inj, Statement.text, Role.attributes]
    · next h' =>
      convert ShowsState.inner h h' using 1
      simp [← String.toList_inj, Statement.text, Role.attributes]

theorem drawnStep_of_reads (h : t.isEpsilon = false) (id : Nat) :
    drawnStep (id, t) = nodeName id ++ " -> " ++ nodeName t.target ++ "[label=" ++
      quotedLabel t.label.text ++ "]\n" := by
  rw [drawnStep, stepStatement, if_neg (by rw [h]; decide)]
  simp [← String.toList_inj, Statement.text, quotedLabel]

theorem drawnStep_of_silent (h : t.isEpsilon = true) (id : Nat) :
    drawnStep (id, t) = nodeName id ++ " -> " ++ nodeName t.target ++ "[style=dashed]\n" := by
  rw [drawnStep, stepStatement, if_pos h]
  simp [← String.toList_inj, Statement.text]

theorem showsStep_drawnStep
    (h : t.isEpsilon = false → labelled (quotedLabel t.label.text) t.label.text) (id : Nat) :
    ShowsStep labelled (id, t) (drawnStep (id, t)) := by
  cases hsilent : t.isEpsilon with
  | true =>
    rw [drawnStep_of_silent hsilent]
    exact .silent hsilent
  | false =>
    rw [drawnStep_of_reads hsilent]
    exact .reading hsilent (h hsilent)

theorem drawing_eq (a : Automaton) : a.drawing = drawingHead ++
    String.join (a.reachable.map a.drawnState) ++
    String.join ((a.stepsFrom a.reachable).map drawnStep) ++ drawingTail := by
  have hedges : (a.reachable.flatMap fun id => (a.transitions id).map (stepStatement id)).map
      (·.text ++ "\n") = (a.stepsFrom a.reachable).map drawnStep := by
    rw [stepsFrom, List.map_flatMap, List.map_flatMap]
    simp only [List.map_map]
    rfl
  have hnodes : (a.reachable.map fun id => Statement.node id (a.role id)).map (·.text ++ "\n") =
      a.reachable.map a.drawnState := List.map_map
  rw [drawing, statements, List.map_append, hnodes, hedges, String.join_append,
    ← String.append_assoc]

theorem showsState_reachable (a : Automaton) :
    List.Forall₂ a.ShowsState a.reachable (a.reachable.map a.drawnState) := by
  rw [List.forall₂_map_right_iff, List.forall₂_same]
  exact fun id _ => a.showsState_drawnState id

/-- The drawing is a picture, with the labels as they are written. -/
theorem pictured_drawing (h : a.WellShaped) (hlabels : ∀ id, ∀ t ∈ a.transitions id,
      t.isEpsilon = false → labelled (quotedLabel t.label.text) t.label.text) :
    a.Pictured labelled a.drawing := by
  refine ⟨a.reachable, _, _, a.graph.breadthFirst_reachable a.start, h.reachable_perm,
    a.showsState_reachable, ?_, a.drawing_eq⟩
  · rw [List.forall₂_map_right_iff, List.forall₂_same]
    rintro ⟨id, t⟩ hstep
    obtain ⟨id', -, hmem⟩ := List.mem_flatMap.mp hstep
    obtain ⟨t', ht', heq⟩ := List.mem_map.mp hmem
    cases heq
    exact showsStep_drawnStep (hlabels id t ht') id

/-! ## Other ways to read the drawing -/

/-- A state is shown by one statement only, if the start and the accept are apart. -/
theorem rightUnique_showsState (hne : a.start ≠ a.accept) : Relator.RightUnique a.ShowsState := by
  intro id l m hl hm
  cases hl with
  | start h =>
    cases hm with
    | start => rfl
    | accept h' => exact absurd (h.symm.trans h') hne
    | inner h' _ => exact absurd h h'
  | accept h =>
    cases hm with
    | start h' => exact absurd (h'.symm.trans h) hne
    | accept => rfl
    | inner _ h' => exact absurd h h'
  | inner h h' =>
    cases hm with
    | start h'' => exact absurd h'' h
    | accept h'' => exact absurd h'' h'
    | inner => rfl

/-- However a drawing is divided into the statements of its steps, a label with a quote does
not stand for itself. -/
theorem notMem_of_drawn (h : List.Forall₂ (ShowsStep DotString.Spells) steps edges)
    {rest rest' : List Char} (heq : (String.join edges).toList ++ rest =
      (String.join (steps.map drawnStep)).toList ++ rest') :
    ∀ step ∈ steps, step.2.isEpsilon = false → '"' ∉ step.2.label.text.toList := by
  induction h with
  | nil => exact List.forall_mem_nil _
  | @cons step line steps edges hstep _ ih =>
    rw [List.forall_mem_cons]
    cases hstep with
    | @silent id t hsilent =>
      rw [List.map_cons, drawnStep_of_silent hsilent] at heq
      simp only [String.join_cons, String.toList_append, List.append_assoc,
        List.append_cancel_left_eq] at heq
      refine ⟨fun hreads => ?_, ih heq⟩
      rw [hsilent] at hreads
      cases hreads
    | @reading id t written hreads hspells =>
      rw [List.map_cons, drawnStep_of_reads hreads] at heq
      simp only [String.join_cons, String.toList_append, List.append_assoc,
        List.append_cancel_left_eq] at heq
      -- The label ends where it is read to its end, whoever wrote it.
      have hread := hspells.read_append ("]\n".toList ++ ((String.join edges).toList ++ rest))
      rw [heq, read_quotedLabel_eq_iff] at hread
      obtain ⟨hnone, hbehind⟩ := hread
      exact ⟨fun _ => hnone, ih (List.append_cancel_left hbehind)⟩

/-- A drawing is faithful if and only if no quote is read. -/
theorem faithful_drawing_iff (h : a.WellShaped) :
    a.Faithful a.drawing ↔ ∀ label ∈ a.graph.readingLabels, '"' ∉ label.text.toList := by
  constructor
  · rintro ⟨order, nodes, edges, hsearch, -, hnodes, hedges, htext⟩ label hlabel
    obtain ⟨id, t, ht, hreads, rfl⟩ := Graph.mem_readingLabels.mp hlabel
    obtain rfl : order = a.reachable := hsearch.unique (a.graph.breadthFirst_reachable a.start)
    obtain rfl := (rightUnique_showsState h.start_ne_accept).forall₂ hnodes a.showsState_reachable
    rw [drawing_eq, ← String.toList_inj] at htext
    simp only [String.toList_append, List.append_assoc, List.append_cancel_left_eq] at htext
    have hstep : (id, t) ∈ a.stepsFrom a.reachable := by
      refine List.mem_flatMap.mpr ⟨id, ?_, List.mem_map_of_mem ht⟩
      exact h.reachable_perm.mem_iff.mpr (List.mem_range.mpr (Graph.lt_size_of_mem ht))
    exact notMem_of_drawn hedges htext.symm _ hstep hreads
  · intro hlabels
    refine pictured_drawing h fun id t ht hreads => spells_quotedLabel_iff.mpr ?_
    exact hlabels _ (Graph.mem_readingLabels.mpr ⟨id, t, ht, hreads, rfl⟩)

/-- A compiled automaton reads letters, digits and backslashes only. -/
theorem faithful_of_compile {p : String} {flags : Flags} (h : compile p flags = .ok a) :
    a.Faithful a.drawing := by
  refine (faithful_drawing_iff (wellShaped_of_compile h)).mpr fun label hlabel => ?_
  obtain ⟨id, t, ht, hreads, rfl⟩ := Graph.mem_readingLabels.mp hlabel
  rcases legible_of_compile h ht with hsilent | ⟨hoperand, hcanonical⟩
  · rw [Transition.isEpsilon, hsilent] at hreads
    cases hreads
  · exact hcanonical.notMem_text hoperand (by decide) rfl

end Automaton

/-- The drawing of an automaton shows each state and each step once, in order, and each label
up to its first quote.  It is faithful if and only if no label has a quote in it, and labels of
compiled automata have none. -/
theorem drawing_shows {a : Automaton} (h : a.Built) :
    a.Pictured (fun written text => (Text.DotString.read written.toList).map Prod.fst =
      some (text.toList.takeWhile (· != '"'))) a.drawing ∧
    (a.Faithful a.drawing ↔ ∀ label ∈ a.graph.readingLabels, '"' ∉ label.text.toList) ∧
    ((∃ p flags, compile p flags = .ok a) → a.Faithful a.drawing) := by
  refine ⟨Automaton.pictured_drawing h.wellShaped fun id t _ _ => ?_,
    Automaton.faithful_drawing_iff h.wellShaped, fun ⟨p, flags, hcompile⟩ =>
      Automaton.faithful_of_compile hcompile⟩
  have hread := Automaton.read_quotedLabel t.label.text []
  rw [List.append_nil] at hread
  rw [hread]
  rfl

/-- Backslashes, and characters that mean something elsewhere in a drawing. -/
theorem drawing_shows_backslashes :
    ∃ a, build [⟨.literal, "\\]\n", 0⟩, ⟨.escape, "\\", 3⟩, ⟨.union, "|", 2⟩] Flags.empty = .ok a ∧
      a.Built ∧ a.Faithful a.drawing := by
  obtain ⟨a, h, hlabels⟩ : ∃ a,
      build [⟨.literal, "\\]\n", 0⟩, ⟨.escape, "\\", 3⟩, ⟨.union, "|", 2⟩] Flags.empty = .ok a ∧
        ∀ label ∈ a.graph.readingLabels, '"' ∉ label.text.toList := ⟨_, rfl, by decide⟩
  have hbuilt : a.Built := .inl ⟨_, _, h⟩
  exact ⟨a, h, hbuilt, (drawing_shows hbuilt).2.1.mpr hlabels⟩

/-- The label of a single quote is read as nothing. -/
theorem not_faithful_quote :
    ∃ a, build [⟨.literal, "\"", 0⟩] Flags.empty = .ok a ∧ a.Built ∧ ¬a.Faithful a.drawing := by
  obtain ⟨a, h, label, hlabel, hquote⟩ : ∃ a, build [⟨.literal, "\"", 0⟩] Flags.empty = .ok a ∧
    ∃ label ∈ a.graph.readingLabels, '"' ∈ label.text.toList :=
      ⟨_, rfl, ⟨.literal, "\"", 0⟩, by decide, by decide⟩
  refine ⟨a, h, .inl ⟨_, _, h⟩, fun hfaithful => ?_⟩
  exact (Automaton.faithful_drawing_iff (wellShaped_of_build h)).mp hfaithful label hlabel hquote

end PatternAutomata
