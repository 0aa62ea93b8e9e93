import PatternAutomata.Graph.Fragment

/-!
# Graphs that check their accesses

The operations on graphs pass over an index without a state.  Here they check every
index that they use, and give nothing at all if there is no state.

The copy goes by a queue, as a search does.  It meets states, names a new state for
each of them at once, and fills the new states with steps when all are named
(`Copier`).  Old and new states share one array all the while.

A loop does not count its rounds, so `copy?` is told how many to go through.
-/

namespace PatternAutomata

open Std (TreeMap)

namespace Graph

/-- Adds a step out of a state. -/
def link? (g : Graph) (source : Nat) (label : Token) (target : Nat) : Option Graph :=
  if source < g.size then some (g.link source label target) else none

/-- Adds a step that reads nothing out of a state. -/
def skip? (g : Graph) (source target : Nat) : Option Graph :=
  g.link? source Token.epsilon target

/-- The steps out of a state. -/
def transitions? (g : Graph) (id : Nat) : Option (List Transition) :=
  g.states[id]?.map State.transitions

/-- Puts other steps in the place of those out of a state. -/
def replace? (g : Graph) (id : Nat) (transitions : List Transition) : Option Graph :=
  if id < g.size then some ⟨g.states.modify id ({ · with transitions })⟩ else none

/-! ## Fragments -/

/-- A fragment that reads one token. -/
def atom? (g : Graph) (label : Token) : Option (Graph × Fragment) := do
  let f := g.nextPair
  let g ← g.grow.grow.link? f.start label f.accept
  return (g, f)

/-- A fragment that reads nothing. -/
def blank? (g : Graph) : Option (Graph × Fragment) := do
  let f := g.nextPair
  let g ← g.grow.grow.skip? f.start f.accept
  return (g, f)

/-- One fragment after the other. -/
def concat? (g : Graph) (lower upper : Fragment) : Option (Graph × Fragment) := do
  let g ← g.skip? lower.accept upper.start
  return (g, ⟨lower.start, upper.accept⟩)

/-- A choice between two fragments. -/
def union? (g : Graph) (lower upper : Fragment) : Option (Graph × Fragment) := do
  let f := g.nextPair
  let g ← g.grow.grow.skip? f.start lower.start
  let g ← g.skip? f.start upper.start
  let g ← g.skip? lower.accept f.accept
  let g ← g.skip? upper.accept f.accept
  return (g, f)

/-- Any number of passes through a fragment. -/
def star? (g : Graph) (inner : Fragment) : Option (Graph × Fragment) := do
  let f := g.nextPair
  let g ← g.grow.grow.skip? f.start inner.start
  let g ← g.skip? f.start f.accept
  let g ← g.skip? inner.accept inner.start
  let g ← g.skip? inner.accept f.accept
  return (g, f)

/-- At most one pass through a fragment. -/
def question? (g : Graph) (inner : Fragment) : Option (Graph × Fragment) := do
  let (g, nothing) ← g.blank?
  g.union? inner nothing

end Graph

/-! ## Copies -/

/-- What is known between two states while a fragment is copied. -/
structure Copier where
  /-- The old states, and a new one for each state that has been met. -/
  graph : Graph
  /-- The new state of each state that has been met. -/
  names : TreeMap Nat Nat
  /-- The states that have been taken, in that order. -/
  order : List Nat
  /-- The states that wait, the next one first. -/
  waiting : List Nat

namespace Copier

/-- The copy in front of its root, which has a name already. -/
def start (g : Graph) (root : Nat) : Copier :=
  ⟨g.grow, (∅ : TreeMap Nat Nat).insert root g.size, [], [root]⟩

/-- Meets a state, which gets a name and waits if it has none. -/
def meet (c : Copier) (id : Nat) : Copier :=
  if id ∈ c.names then c
  else { c with
    graph := c.graph.grow
    names := c.names.insert id c.graph.size
    waiting := c.waiting ++ [id] }

/-- Takes the first state that waits, and meets the targets of its steps. -/
def step? (c : Copier) : Option Copier :=
  match c.waiting with
  | [] => some c
  | id :: waiting =>
    (c.graph.transitions? id).map fun ts =>
      (ts.map Transition.target).foldl meet { c with order := c.order ++ [id], waiting }

/-- Takes as many states as there are rounds. -/
def run? : Nat → Copier → Option Copier
  | 0, c => some c
  | rounds + 1, c => c.step? >>= run? rounds

/-- Gives the new state of an old one the steps of the old one.  A step to a state
without a name is left out. -/
def fill? (names : TreeMap Nat Nat) (g : Graph) (old : Nat) : Option Graph := do
  let ts ← g.transitions? old
  match names[old]? with
  | some new =>
    g.replace? new (ts.filterMap fun t => names[t.target]?.map (⟨t.label, ·⟩))
  | none => return g

end Copier

namespace Graph

/-- A copy of all that the start of a fragment leads to, none if the accept is not
among it. -/
def copy? (rounds : Nat) (g : Graph) (f : Fragment) : Option (Option (Graph × Fragment)) := do
  let c ← (Copier.start g f.start).run? rounds
  let made ← c.order.foldlM (Copier.fill? c.names) c.graph
  return c.names[f.accept]?.map fun accept => (made, ⟨g.size, accept⟩)

/-- At least one pass through a fragment. -/
def plus? (rounds : Nat) (g : Graph) (inner : Fragment) : Option (Option (Graph × Fragment)) := do
  match ← g.copy? rounds inner with
  | none => return none
  | some (g, second) =>
    let (g, repeated) ← g.star? second
    let made ← g.concat? inner repeated
    return some made

end Graph

end PatternAutomata
