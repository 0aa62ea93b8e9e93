import Std.Data.ExtTreeSet

/-!
# Breadth-first search

A search goes by levels.  The first level holds the roots, and every level after
it holds what the level before leads to and no earlier level holds.  Within a
level the order is that of the level before, and then that of the successors.
The result lists the levels one after the other, so it is sorted by the distance
from the roots.

The search stops at an empty level, or after a number of rounds.  A shortest way
leaves every vertex at most once, so if only `n` vertices have successors, no
distance is above `n`, and `n + 1` levels are all there are.
-/

namespace PatternAutomata.Search

open Std (ExtTreeSet)

/-- The vertices of a list that were not seen before, each once, and what has
been seen after that. -/
def fresh (seen : ExtTreeSet Nat) : List Nat → List Nat × ExtTreeSet Nat
  | [] => ([], seen)
  | v :: vs =>
    if v ∈ seen then fresh seen vs
    else
      let rest := fresh (seen.insert v) vs
      (v :: rest.1, rest.2)

/-- The levels from `level` on, at most `rounds` of them.  The level and all
before it have been seen. -/
def levels (next : Nat → List Nat) : Nat → ExtTreeSet Nat → List Nat → List (List Nat)
  | 0, _, _ => []
  | _ + 1, _, [] => []
  | rounds + 1, seen, level =>
    let found := fresh seen (level.flatMap next)
    level :: levels next rounds found.2 found.1

/-- All that the roots lead to in fewer than `rounds` steps, nearest first. -/
def reach (next : Nat → List Nat) (rounds : Nat) (roots : List Nat) : List Nat :=
  let found := fresh ∅ roots
  (levels next rounds found.2 found.1).flatten

/-! ## Tests -/

/-- A ladder with a step back. -/
private def ladder : Nat → List Nat
  | 0 => [2, 1]
  | 1 => [3]
  | 2 => [3, 0, 4]
  | _ => []

example : reach ladder 6 [0, 0] = [0, 2, 1, 3, 4] := by decide +kernel

example : reach ladder 2 [0] = [0, 2, 1] := by decide +kernel

end PatternAutomata.Search
