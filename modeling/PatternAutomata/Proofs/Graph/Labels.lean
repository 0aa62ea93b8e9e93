import PatternAutomata.Proofs.Graph.Embeds

/-!
# The labels of a graph

Every operation adds states and steps to a graph, and takes none away.  What it adds to the
labels of all steps is known from the operation alone, in whatever order they come
(`Graph.stepLabels`).  There is one lemma for each operation.

A copy of all states doubles the labels (`stepLabels_copied_perm`).  A graph that stands
behind another one adds its own labels to those of the other
(`Embeds.stepLabels_behind`).
-/

namespace PatternAutomata.Graph

variable {g g' base : Graph} {lower upper inner : Fragment} {order : List Nat}
variable {source target : Nat} {label : Token}

/-- The labels of all steps, state by state. -/
def stepLabels (g : Graph) : List Token := g.allTransitions.map Transition.label

theorem transitionCount_eq (g : Graph) : g.transitionCount = g.stepLabels.length :=
  (List.length_map _).symm

/-- The labels that read something are those that are not silent. -/
theorem readingLabels_eq (g : Graph) : g.readingLabels = g.stepLabels.filter (!·.isEpsilon) := by
  rw [stepLabels, List.filter_map]
  rfl

/-- What is read is read by a step out of a state. -/
theorem mem_readingLabels : label ∈ g.readingLabels ↔
    ∃ id, ∃ t ∈ g.transitions id, t.isEpsilon = false ∧ t.label = label := by
  rw [readingLabels, List.mem_map]
  constructor
  · rintro ⟨t, ht, rfl⟩
    rw [List.mem_filter, mem_allTransitions, Bool.not_eq_true'] at ht
    obtain ⟨⟨id, hmem⟩, hreads⟩ := ht
    exact ⟨id, t, hmem, hreads, rfl⟩
  · rintro ⟨id, t, hmem, hreads, rfl⟩
    refine ⟨t, ?_, rfl⟩
    rw [List.mem_filter, mem_allTransitions, Bool.not_eq_true']
    exact ⟨⟨id, hmem⟩, hreads⟩

/-! ## Steps -/

@[simp] theorem stepLabels_grow (g : Graph) : g.grow.stepLabels = g.stepLabels := by
  rw [stepLabels, allTransitions_grow, stepLabels]

theorem stepLabels_link_perm (h : source < g.size) (label : Token) (target : Nat) :
    (g.link source label target).stepLabels.Perm (label :: g.stepLabels) :=
  (allTransitions_link_perm h label target).map Transition.label

theorem stepLabels_skip_perm (h : source < g.size) (target : Nat) :
    (g.skip source target).stepLabels.Perm (Token.epsilon :: g.stepLabels) :=
  stepLabels_link_perm h Token.epsilon target

/-- A fork adds two silent steps. -/
theorem stepLabels_skip_skip_perm {source' : Nat} (h : source < g.size) (h' : source' < g.size)
    (target target' : Nat) :
    ((g.skip source target).skip source' target').stepLabels.Perm
      (List.replicate 2 Token.epsilon ++ g.stepLabels) :=
  (stepLabels_skip_perm (lt_size_skip h' _ _) target').trans
    ((stepLabels_skip_perm h target).cons Token.epsilon)

/-! ## Operations -/

theorem stepLabels_atom_perm (g : Graph) (label : Token) :
    (g.atom label).1.stepLabels.Perm (label :: g.stepLabels) := by
  have hstart : g.size < g.grow.grow.size := by
    rw [size_grow, size_grow]
    omega
  have hlink := stepLabels_link_perm hstart label (g.size + 1)
  rwa [stepLabels_grow, stepLabels_grow] at hlink

theorem stepLabels_concat_perm (h : lower.accept < g.size) (upper : Fragment) :
    (g.concat lower upper).1.stepLabels.Perm (Token.epsilon :: g.stepLabels) :=
  stepLabels_skip_perm h upper.start

/-- Two steps out of a new start, and one out of each of two old states. -/
theorem stepLabels_forks_perm {last last' : Nat} (h : last < g.size) (h' : last' < g.size)
    (first second third fourth : Nat) :
    ((((g.grow.grow.skip g.size first).skip g.size second).skip last third).skip last'
      fourth).stepLabels.Perm (List.replicate 4 Token.epsilon ++ g.stepLabels) := by
  have hsize : g.grow.grow.size = g.size + 2 := by rw [size_grow, size_grow]
  have hstart : g.size < g.grow.grow.size := by omega
  have hinto := stepLabels_skip_skip_perm hstart hstart first second
  rw [stepLabels_grow, stepLabels_grow] at hinto
  refine (stepLabels_skip_skip_perm ?_ ?_ third fourth).trans (hinto.append_left _)
  · rw [size_skip, size_skip]
    omega
  · rw [size_skip, size_skip]
    omega

theorem stepLabels_union_perm (hl : lower.accept < g.size) (hu : upper.accept < g.size) :
    (g.union lower upper).1.stepLabels.Perm (List.replicate 4 Token.epsilon ++ g.stepLabels) :=
  stepLabels_forks_perm hl hu _ _ _ _

theorem stepLabels_star_perm (h : inner.accept < g.size) :
    (g.star inner).1.stepLabels.Perm (List.replicate 4 Token.epsilon ++ g.stepLabels) :=
  stepLabels_forks_perm h h _ _ _ _

theorem stepLabels_question_perm (h : inner.accept < g.size) :
    (g.question inner).1.stepLabels.Perm (List.replicate 5 Token.epsilon ++ g.stepLabels) := by
  have hsize : g.blank.1.size = g.size + 2 := size_atom g Token.epsilon
  have haccept : g.blank.2.accept < g.blank.1.size := by
    rw [hsize]
    exact Nat.lt_succ_self (g.size + 1)
  have hunion := stepLabels_union_perm (Nat.lt_of_lt_of_le h (by omega)) haccept
  exact hunion.trans ((stepLabels_atom_perm g Token.epsilon).append_left _)

/-! ## Graphs beside each other -/

/-- A copy of all states has the labels of all steps. -/
theorem stepLabels_copied_perm (h : order.Perm (List.range g.size)) :
    (g.copied order).stepLabels.Perm (g.stepLabels ++ g.stepLabels) := by
  have hcopies : (order.flatMap g.transitions).Perm g.allTransitions := by
    rw [allTransitions_eq]
    exact h.flatMap_right g.transitions
  rw [stepLabels, allTransitions_copied, List.map_append, List.map_map]
  exact (hcopies.map Transition.label).append_left g.stepLabels

theorem Embeds.size_behind (h : Embeds base (base.size + ·) id g g') :
    g'.size = base.size + g.size := h.names_size.symm

/-- What stands behind a graph adds its labels to those of the graph. -/
theorem Embeds.stepLabels_behind (h : Embeds base (base.size + ·) id g g') :
    g'.stepLabels = base.stepLabels ++ g.stepLabels := by
  have hkept : (List.range base.size).flatMap g'.transitions = base.allTransitions := by
    rw [allTransitions_eq]
    exact List.flatMap_congr fun id hid => h.kept id (List.mem_range.mp hid)
  have hmoved : (List.range g.size).flatMap (fun id => g'.transitions (base.size + id)) =
      g.allTransitions.map (.rename (base.size + ·)) := by
    rw [allTransitions_eq, List.map_flatMap]
    refine List.flatMap_congr fun id _ => ?_
    rw [← Transition.move_id]
    exact h.transitions_eq id
  rw [stepLabels, allTransitions_eq, h.size_behind, List.range_add, List.flatMap_append, hkept,
    List.flatMap_map, hmoved, List.map_append, List.map_map]
  rfl

end PatternAutomata.Graph
