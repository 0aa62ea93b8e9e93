import PatternAutomata.Proofs.Builder.Follows
import PatternAutomata.Proofs.Graph.BreadthFirst

/-!
# Copies in a builder

A copy of a fragment is a new state for each state that the start leads to.  The new
states stand behind all others, in breadth-first order.  Each has the steps of the old
one, with the same labels in the same order, and leads to the copies of the targets.  The
old states are as they were, so no step connects the two (`Graph.IsCopy`).

What a fragment leads to is closed under steps, so no step of a copy goes missing
(`Graph.isCopy_copied`).  In every builder that a list of tokens leads to, each fragment
leads to its accept, so there is a copy of it (`Builder.copy_of_foldlM`).
-/

namespace PatternAutomata

namespace Graph

variable {g : Graph} {f : Fragment} {order : List Nat} {made : Graph × Fragment} {id i : Nat}

/-- A step of a copy reads the same token, and leads to the copy of the target.  The copy
of the `i`th state is the `i`th state behind the first `n`. -/
def CopiesStep (n : Nat) (order : List Nat) (t t' : Transition) : Prop :=
  t'.label = t.label ∧ ∃ i, order[i]? = some t.target ∧ t'.target = n + i

/-- What is made is the graph with a copy of the listed states, between the copies of the
two ends of a fragment. -/
structure IsCopy (g : Graph) (f : Fragment) (order : List Nat) (made : Graph × Fragment) :
    Prop where
  /-- There is one new state for each listed state. -/
  size_eq : made.1.size = g.size + order.length
  /-- The old states are as they were. -/
  kept : ∀ id < g.size, made.1.states[id]? = g.states[id]?
  /-- The copy of the `i`th listed state is the `i`th new state, and has copies of its steps
  in the same order. -/
  copied : ∀ i id, order[i]? = some id → ∃ ts,
    made.1.states[g.size + i]? = some ⟨g.size + i, ts⟩ ∧
      List.Forall₂ (CopiesStep g.size order) (g.transitions id) ts
  /-- No step leads from an old state to a new one. -/
  old_apart : ∀ id < g.size, ∀ t ∈ made.1.transitions id, t.target < g.size
  /-- No step leads from a new state to an old one. -/
  new_apart : ∀ id, g.size ≤ id → ∀ t ∈ made.1.transitions id,
    g.size ≤ t.target ∧ t.target < made.1.size
  /-- The start is the first new state. -/
  start_eq : made.2.start = g.size
  /-- The accept is the copy of the accept. -/
  accept_eq : ∃ i, order[i]? = some f.accept ∧ made.2.accept = g.size + i

/-- The copy of the `i`th listed state is the `i`th new state. -/
theorem getElem?_states_copied (h : order[i]? = some id) :
    (g.copied order).states[g.size + i]? =
      some ⟨g.size + i, (g.transitions id).map (.rename (g.renamed order))⟩ := by
  have hle : g.states.toList.length ≤ g.size + i := Nat.le_add_right _ _
  rw [← Array.getElem?_toList, states_copied, List.getElem?_append_right hle]
  simp [size, copies, h]

theorem getElem?_states_copied_of_lt (h : id < g.size) (order : List Nat) :
    (g.copied order).states[id]? = g.states[id]? := by
  rw [← Array.getElem?_toList, states_copied, List.getElem?_append_left h, Array.getElem?_toList]

/-- Copies of states that are closed under steps are a copy. -/
theorem isCopy_copied (hlt : ∀ id, ∀ t ∈ g.transitions id, t.target < g.size)
    (hnodup : order.Nodup) (hclosed : g.Closed {id | id ∈ order}) (haccept : f.accept ∈ order) :
    g.IsCopy f order (g.copied order, ⟨g.size, g.renamed order f.accept⟩) where
  size_eq := size_copied g order
  kept _ hid := getElem?_states_copied_of_lt hid order
  copied i id hid := by
    refine ⟨_, getElem?_states_copied hid, ?_⟩
    rw [List.forall₂_map_right_iff, List.forall₂_same]
    intro t ht
    have hmem : t.target ∈ order := hclosed id (List.mem_of_getElem? hid) t ht
    exact ⟨rfl, order.idxOf t.target, List.getElem?_idxOf hmem, rfl⟩
  old_apart id hid t ht := by
    rw [transitions_copied_of_lt hid] at ht
    exact hlt id t ht
  new_apart id hid t ht := by
    rcases g.copied_cases hnodup id with hold | ⟨old, hmem, rfl⟩ | hnone
    · exact absurd hid (Nat.not_le_of_lt hold)
    · rw [transitions_copied_renamed hmem] at ht
      obtain ⟨u, hu, rfl⟩ := List.mem_map.mp ht
      have htarget := List.idxOf_lt_length_of_mem (hclosed old hmem u hu)
      rw [size_copied]
      exact ⟨Nat.le_add_right _ _, Nat.add_lt_add_left htarget _⟩
    · rw [transitions_of_size_le hnone] at ht
      cases ht
  start_eq := rfl
  accept_eq := ⟨order.idxOf f.accept, List.getElem?_idxOf haccept, rfl⟩

end Graph

namespace Builder

variable {b : Builder} {f : Fragment} {rpn : List Token}

/-- In every builder that a list of tokens leads to, each fragment has a copy of all states
that its start leads to, numbered in breadth-first order.  The search for them comes to an
end by itself. -/
theorem copy_of_foldlM (h : rpn.foldlM apply empty = .ok b) (hf : f ∈ b.stack) :
    (∀ rounds, b.graph.size < rounds →
      Search.reach b.graph.targets rounds [f.start] = b.graph.reachable f.start) ∧
    Search.BreadthFirst b.graph.targets f.start (b.graph.reachable f.start) ∧
    ∃ made, b.graph.copy f = some made ∧
      b.graph.IsCopy f (b.graph.reachable f.start) made := by
  have hsound := sound_of_foldlM h
  have haccept := hsound.accept_mem_reachable hf
  refine ⟨fun _ => b.graph.reach_targets_eq f.start, b.graph.breadthFirst_reachable f.start, _,
    Graph.copy_eq haccept, ?_⟩
  exact Graph.isCopy_copied hsound.orderly.target_lt (Graph.nodup_reachable _ _)
    (Graph.closed_reachable _ _) haccept

/-- Below another fragment, a loop behind its operand is copied in breadth-first order, which
is not that of the indices. -/
theorem copy_of_foldlM_twoFragments :
    letterPlusEscape.foldlM apply empty = .ok twoFragments ∧
      Search.BreadthFirst twoFragments.graph.targets 0 [0, 1, 4, 2, 5, 3] ∧
      ∃ made, twoFragments.graph.copy ⟨0, 5⟩ = some made ∧
        twoFragments.graph.IsCopy ⟨0, 5⟩ [0, 1, 4, 2, 5, 3] made := by
  have hrun : letterPlusEscape.foldlM apply empty = .ok twoFragments := rfl
  have horder : twoFragments.graph.reachable 0 = [0, 1, 4, 2, 5, 3] := by decide +kernel
  obtain ⟨-, hsearch, made, hmade, hcopy⟩ := copy_of_foldlM (f := ⟨0, 5⟩) hrun (by decide)
  rw [horder] at hsearch hcopy
  exact ⟨hrun, hsearch, made, hmade, hcopy⟩

end Builder

end PatternAutomata
