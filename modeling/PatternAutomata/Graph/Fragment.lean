import PatternAutomata.Graph.Basic
import PatternAutomata.Graph.Search
import Std.Data.TreeMap

/-!
# Fragments

A fragment is a part of a graph with a start and an accept.  What it reads from
the one to the other is what an expression stands for.  Each operation of
expressions has an operation on fragments, which adds states and steps to the
graph.  No step ever enters a start or leaves an accept before the fragment
becomes part of a larger one, so the operations do not disturb one another.

One pass or more is one pass followed by any number of passes.  A fragment can
stand in one place only, so the second pass goes through a copy.  The copy is
numbered in the order in which a breadth-first search finds the states.
-/

namespace PatternAutomata

open Std (TreeMap)

/-- A part of a graph between two of its states. -/
structure Fragment where
  /-- Where reading starts. -/
  start : Nat
  /-- Where reading has come to its end. -/
  accept : Nat
deriving DecidableEq

namespace Graph

/-- The states that `root` leads to, nearest first. -/
def reachable (g : Graph) (root : Nat) : List Nat :=
  Search.reach g.targets (g.size + 1) [root]

/-- The two states that are added next, as a fragment. -/
def nextPair (g : Graph) : Fragment := ⟨g.size, g.size + 1⟩

/-- A fragment that reads one token. -/
def atom (g : Graph) (label : Token) : Graph × Fragment :=
  let f := g.nextPair
  (g.grow.grow.link f.start label f.accept, f)

/-- A fragment that reads nothing. -/
def blank (g : Graph) : Graph × Fragment :=
  let f := g.nextPair
  (g.grow.grow.skip f.start f.accept, f)

/-- One fragment after the other. -/
def concat (g : Graph) (lower upper : Fragment) : Graph × Fragment :=
  (g.skip lower.accept upper.start, ⟨lower.start, upper.accept⟩)

/-- A choice between two fragments. -/
def union (g : Graph) (lower upper : Fragment) : Graph × Fragment :=
  let f := g.nextPair
  ((((g.grow.grow.skip f.start lower.start).skip f.start upper.start).skip
    lower.accept f.accept).skip upper.accept f.accept, f)

/-- Any number of passes through a fragment. -/
def star (g : Graph) (inner : Fragment) : Graph × Fragment :=
  let f := g.nextPair
  ((((g.grow.grow.skip f.start inner.start).skip f.start f.accept).skip
    inner.accept inner.start).skip inner.accept f.accept, f)

/-- At most one pass through a fragment. -/
def question (g : Graph) (inner : Fragment) : Graph × Fragment :=
  let (g, nothing) := g.blank
  g.union inner nothing

/-- The index of every state of a list in that list. -/
def ranks (order : List Nat) : TreeMap Nat Nat := TreeMap.ofList order.zipIdx

/-- A copy of all that the start of a fragment leads to.  The `i`th state that
is found becomes the `i`th new state.  There is no copy if the start does not
lead to the accept. -/
def copy (g : Graph) (f : Fragment) : Option (Graph × Fragment) :=
  let order := g.reachable f.start
  let rank := ranks order
  let renamed (id : Nat) : Option Nat := rank[id]?.map (g.size + ·)
  let copied (t : Transition) : Option Transition := (renamed t.target).map (⟨t.label, ·⟩)
  let states := order.zipIdx.map fun (id, i) =>
    State.mk (g.size + i) ((g.transitions id).filterMap copied)
  (renamed f.accept).map fun accept => (⟨g.states ++ states⟩, ⟨g.size, accept⟩)

/-- At least one pass through a fragment. -/
def plus (g : Graph) (inner : Fragment) : Option (Graph × Fragment) :=
  (g.copy inner).map fun (g, second) =>
    let (g, repeated) := g.star second
    g.concat inner repeated

/-! ## Sizes -/

variable (g : Graph) (lower upper inner : Fragment)

@[simp] theorem size_atom (label : Token) : (g.atom label).1.size = g.size + 2 := by
  simp [atom]

@[simp] theorem size_concat : (g.concat lower upper).1.size = g.size := by
  simp [concat]

@[simp] theorem size_union : (g.union lower upper).1.size = g.size + 2 := by
  simp [union]

@[simp] theorem size_star : (g.star inner).1.size = g.size + 2 := by
  simp [star]

@[simp] theorem size_question : (g.question inner).1.size = g.size + 4 := by
  simp [question, blank]

end Graph

/-! ## Tests -/

/-- The fragment of a single letter. -/
private def letter : Graph × Fragment := Graph.empty.atom ⟨.literal, "a", 0⟩

example : (letter.1.plus letter.2).map (·.2) = some ⟨0, 5⟩ := by decide +kernel

example : (letter.1.plus letter.2).map (fun (g, f) => g.reachable f.start) =
    some [0, 1, 4, 2, 5, 3] := by decide +kernel

example : letter.1.plus ⟨1, 0⟩ = none := by decide +kernel

end PatternAutomata
