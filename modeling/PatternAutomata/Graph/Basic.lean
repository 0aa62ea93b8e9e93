import PatternAutomata.Token

/-!
# Graphs of states

A graph is an array of states, and a transition names its target by the index.
States are only ever added at the end, and transitions only at the end of the
list of their source, so an index keeps its meaning while a graph grows.

A graph is looked at through its size and through `Graph.transitions`, which
gives an index without a state no transition.  The lemmas say what each
operation does to these two views.
-/

namespace PatternAutomata

/-- A step to another state, with the token that it reads. -/
structure Transition where
  /-- What the step reads. -/
  label : Token
  /-- The state the step leads to. -/
  target : Nat
deriving DecidableEq

/-- Whether the step reads nothing. -/
def Transition.isEpsilon (t : Transition) : Bool := t.label.isEpsilon

/-- A state with the steps out of it. -/
structure State where
  /-- The index of the state in its graph. -/
  id : Nat
  /-- The steps out of the state, in the order in which they were added. -/
  transitions : List Transition
deriving DecidableEq

/-- An array of states. -/
structure Graph where
  /-- The states by index. -/
  states : Array State
deriving DecidableEq

namespace Graph

/-- The graph without states. -/
def empty : Graph := ⟨#[]⟩

/-- The number of states. -/
def size (g : Graph) : Nat := g.states.size

/-- The steps out of a state, none if there is no such state. -/
def transitions (g : Graph) (id : Nat) : List Transition :=
  (g.states[id]?.map State.transitions).getD []

/-- The targets of the steps out of a state. -/
def targets (g : Graph) (id : Nat) : List Nat := (g.transitions id).map Transition.target

/-- The targets of the steps out of a state that read nothing. -/
def silentTargets (g : Graph) (id : Nat) : List Nat :=
  ((g.transitions id).filter Transition.isEpsilon).map Transition.target

/-- All transitions, state by state. -/
def allTransitions (g : Graph) : List Transition := g.states.toList.flatMap State.transitions

/-- The number of transitions. -/
def transitionCount (g : Graph) : Nat := g.allTransitions.length

/-- The labels of the transitions that read something, state by state. -/
def readingLabels (g : Graph) : List Token :=
  (g.allTransitions.filter fun t => !t.isEpsilon).map Transition.label

/-- Adds a state without steps.  Its index is the old size. -/
def grow (g : Graph) : Graph := ⟨g.states.push ⟨g.size, []⟩⟩

/-- Adds a step after all others out of `source`. -/
def link (g : Graph) (source : Nat) (label : Token) (target : Nat) : Graph :=
  ⟨g.states.modify source fun s =>
    { s with transitions := s.transitions ++ [⟨label, target⟩] }⟩

/-- Adds a step that reads nothing. -/
def skip (g : Graph) (source target : Nat) : Graph := g.link source Token.epsilon target

/-! ## The two views -/

@[simp] theorem size_empty : empty.size = 0 := rfl

@[simp] theorem size_grow (g : Graph) : g.grow.size = g.size + 1 := by simp [grow, size]

@[simp] theorem size_link (g : Graph) (source : Nat) (label : Token) (target : Nat) :
    (g.link source label target).size = g.size := by simp [link, size]

@[simp] theorem size_skip (g : Graph) (source target : Nat) :
    (g.skip source target).size = g.size := by simp [skip]

@[simp] theorem transitions_empty (id : Nat) : empty.transitions id = [] := rfl

theorem transitions_of_size_le {g : Graph} {id : Nat} (h : g.size ≤ id) :
    g.transitions id = [] := by
  simp only [size] at h
  simp [transitions, h]

/-- Steps lead out of states only. -/
theorem lt_size_of_mem {g : Graph} {id : Nat} {t : Transition} (h : t ∈ g.transitions id) :
    id < g.size := by
  refine Nat.lt_of_not_le fun hle => ?_
  rw [transitions_of_size_le hle] at h
  cases h

@[simp] theorem transitions_grow (g : Graph) (id : Nat) :
    g.grow.transitions id = g.transitions id := by
  simp only [transitions, grow, size, Array.getElem?_push]
  split
  · next h => simp [h]
  · rfl

theorem transitions_link (g : Graph) (source : Nat) (label : Token) (target id : Nat) :
    (g.link source label target).transitions id =
      if id = source ∧ id < g.size then g.transitions id ++ [⟨label, target⟩]
      else g.transitions id := by
  simp only [transitions, link, size, Array.getElem?_modify]
  by_cases h : source = id
  · subst h
    by_cases hs : source < g.states.size <;> simp [hs]
  · simp [h, Ne.symm h]

theorem transitions_link_of_ne {g : Graph} {source id : Nat} (h : id ≠ source) (label : Token)
    (target : Nat) : (g.link source label target).transitions id = g.transitions id := by
  rw [transitions_link, if_neg fun heq => h heq.1]

theorem transitions_skip_of_ne {g : Graph} {source id : Nat} (h : id ≠ source) (target : Nat) :
    (g.skip source target).transitions id = g.transitions id :=
  transitions_link_of_ne h Token.epsilon target

theorem mem_transitions_link {g : Graph} {source target id : Nat} {label : Token}
    {t : Transition} :
    t ∈ (g.link source label target).transitions id ↔
      t ∈ g.transitions id ∨ (id = source ∧ id < g.size) ∧ t = ⟨label, target⟩ := by
  rw [transitions_link]
  by_cases h : id = source ∧ id < g.size
  · rw [if_pos h, List.mem_append, List.mem_singleton, and_iff_right h]
  · rw [if_neg h]
    exact (or_iff_left fun hnew => h hnew.1).symm

theorem mem_transitions_skip {g : Graph} {source target id : Nat} {t : Transition} :
    t ∈ (g.skip source target).transitions id ↔
      t ∈ g.transitions id ∨ (id = source ∧ id < g.size) ∧ t = ⟨Token.epsilon, target⟩ :=
  mem_transitions_link

end Graph

end PatternAutomata
