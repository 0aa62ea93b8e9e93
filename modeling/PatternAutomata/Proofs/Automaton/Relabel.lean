import PatternAutomata.Automaton.Dump
import PatternAutomata.Proofs.Graph.Embeds

/-!
# Automata with other labels

The labels of an automaton that read something may get another content
(`Automaton.relabel`).  Its states and the steps between them stay as they are, and so
does what a search finds.  A dump shows the texts of the labels, so it stays the same
if they do (`Automaton.dump_relabel`).
-/

namespace PatternAutomata

/-! ## Labels -/

/-- A step with another label, unless it reads nothing. -/
def Transition.relabel (f : Token → Token) (t : Transition) : Transition :=
  ⟨t.label.relabel f, t.target⟩

/-- A graph with other labels on the steps that read something. -/
def Graph.relabel (f : Token → Token) (g : Graph) : Graph :=
  ⟨g.states.map fun s => { s with transitions := s.transitions.map (.relabel f) }⟩

/-- An automaton with other labels on the steps that read something. -/
def Automaton.relabel (f : Token → Token) (a : Automaton) : Automaton :=
  { a with graph := a.graph.relabel f }

namespace Graph

variable {g g' : Graph} {f : Token → Token}

@[simp] theorem size_relabel (f : Token → Token) (g : Graph) : (g.relabel f).size = g.size := by
  simp [relabel, size]

theorem transitions_relabel (f : Token → Token) (g : Graph) (id : Nat) :
    (g.relabel f).transitions id = (g.transitions id).map (.relabel f) := by
  simp only [transitions, relabel, Array.getElem?_map]
  cases g.states[id]? with
  | none => rfl
  | some s => rfl

theorem id_eq_relabel (h : ∀ (id : Nat) (s : State), g.states[id]? = some s → s.id = id) :
    ∀ (id : Nat) (s : State), (g.relabel f).states[id]? = some s → s.id = id := by
  intro id s hs
  rw [relabel, Array.getElem?_map, Option.map_eq_some_iff] at hs
  obtain ⟨old, hold, rfl⟩ := hs
  exact h id old hold

/-- Graphs whose states stand at their indices are told apart by the two views. -/
theorem eq_of_views (h : ∀ (id : Nat) (s : State), g.states[id]? = some s → s.id = id)
    (h' : ∀ (id : Nat) (s : State), g'.states[id]? = some s → s.id = id)
    (hsize : g.size = g'.size) (htransitions : ∀ id, g.transitions id = g'.transitions id) :
    g = g' := by
  obtain ⟨states⟩ := g
  obtain ⟨states'⟩ := g'
  refine congrArg Graph.mk (Array.ext hsize fun id hid hid' => ?_)
  have hid_eq : states[id].id = states'[id].id := by
    rw [h id _ (Array.getElem?_eq_getElem hid), h' id _ (Array.getElem?_eq_getElem hid')]
  have hsteps := htransitions id
  simp only [transitions, Array.getElem?_eq_getElem hid, Array.getElem?_eq_getElem hid',
    Option.map_some, Option.getD_some] at hsteps
  generalize states[id] = s, states'[id] = s' at hid_eq hsteps
  cases s
  cases s'
  cases hid_eq
  cases hsteps
  rfl

end Graph

/-! ## What stays the same -/

variable {f h : Token → Token}

/-- The label of a silent step is told by its kind, so it stays silent. -/
theorem Token.isEpsilon_relabel (hf : ∀ t, (f t).kind = t.kind) (t : Token) :
    (t.relabel f).isEpsilon = t.isEpsilon := by
  unfold relabel
  split
  · rfl
  · rw [isEpsilon, hf, isEpsilon]

theorem Token.relabel_relabel (hf : ∀ t, (f t).kind = t.kind) (h : Token → Token) (t : Token) :
    (t.relabel f).relabel h = t.relabel (h ∘ f) := by
  rw [relabel, isEpsilon_relabel hf, relabel, relabel]
  split <;> rfl

theorem Token.text_relabel (htext : ∀ t, (f t).text = t.text) (t : Token) :
    (t.relabel f).text = t.text := by
  unfold relabel
  split
  · rfl
  · exact htext t

namespace Automaton

theorem relabel_id (a : Automaton) : a.relabel id = a := by
  have hstep : Transition.relabel id = id := by
    funext t
    rw [Transition.relabel, Token.relabel_id]
    rfl
  have hstates : a.graph.relabel id = a.graph := by
    simp [Graph.relabel, hstep]
  rw [relabel, hstates]

theorem relabel_relabel (hf : ∀ t, (f t).kind = t.kind) (h : Token → Token) (a : Automaton) :
    (a.relabel f).relabel h = a.relabel (h ∘ f) := by
  have hstep : Transition.relabel h ∘ Transition.relabel f = Transition.relabel (h ∘ f) := by
    funext t
    exact congrArg (Transition.mk · t.target) (Token.relabel_relabel hf h t.label)
  have hstates : (a.graph.relabel f).relabel h = a.graph.relabel (h ∘ f) := by
    simp [Graph.relabel, ← hstep]
  rw [relabel, relabel, relabel, hstates]

theorem reachable_relabel (f : Token → Token) (a : Automaton) :
    (a.relabel f).reachable = a.reachable := by
  have htargets : (a.graph.relabel f).targets = a.graph.targets := by
    funext id
    rw [Graph.targets, Graph.transitions_relabel, List.map_map]
    rfl
  change Search.reach (a.graph.relabel f).targets ((a.graph.relabel f).size + 1) [a.start] = _
  rw [htargets, Graph.size_relabel]
  rfl

/-- A dump shows kinds and texts of labels only. -/
theorem dump_relabel (hkind : ∀ t, (f t).kind = t.kind) (htext : ∀ t, (f t).text = t.text)
    (a : Automaton) : (a.relabel f).dump = a.dump := by
  have hline : ∀ t, stepLine (.relabel f t) = stepLine t := by
    intro t
    rw [stepLine, Transition.isEpsilon, Transition.relabel, Token.isEpsilon_relabel hkind,
      Token.text_relabel htext]
    rfl
  have hlines : (a.relabel f).stateLines = a.stateLines := by
    funext id
    change _ :: ((a.graph.relabel f).transitions id).map stepLine = _
    rw [Graph.transitions_relabel, List.map_map]
    exact congrArg (_ :: ·) (List.map_congr_left fun t _ => hline t)
  rw [dump, dumpLines, hlines, reachable_relabel]
  rfl

end Automaton

end PatternAutomata
