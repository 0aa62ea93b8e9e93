import PatternAutomata.Proofs.Automaton.Run
import PatternAutomata.Proofs.Automaton.Shape
import PatternAutomata.Proofs.Graph.BreadthFirst
import PatternAutomata.Proofs.Graph.Worklist

/-!
# What the searches of an automaton find

An automaton is searched in two ways.  `Automaton.closure` follows silent steps only, and
from any number of seeds.  It holds exactly what silent steps lead to from a seed, so it
obeys the laws of a closure (`closure_exact`).  `Automaton.reachable` follows all steps
from the start, and its order counts: it is the breadth-first order of what the start
leads to (`reachable_breadthFirst`).

Both come to an end by themselves.  The number of rounds that they are given is never
what stops them, since further rounds find nothing.  A search with a queue and one with a
stack find the same (`queue_reachable`, `stack_closure`).
-/

namespace PatternAutomata

open Std (ExtTreeSet)

namespace Automaton

variable {a : Automaton} {seeds more : List Nat} {u v q : Nat}

/-! ## Silent steps -/

/-- A silent step leads from one state to another. -/
def SilentStep (a : Automaton) (u v : Nat) : Prop :=
  ∃ t ∈ a.transitions u, t.isEpsilon = true ∧ t.target = v

theorem leads_silentTargets_iff_silentStep :
    Search.Leads a.graph.silentTargets u v ↔ Relation.ReflTransGen a.SilentStep u v := by
  have hstep : (fun u v => v ∈ a.graph.silentTargets u) = a.SilentStep := by
    funext u v
    exact propext mem_silentTargets
  rw [Search.Leads, hstep]

/-- A closure holds what silent steps lead to from a seed. -/
theorem mem_closure_iff_silentStep :
    q ∈ a.closure seeds ↔ ∃ u ∈ seeds, Relation.ReflTransGen a.SilentStep u q := by
  rw [mem_closure_iff]
  simp only [← leads_silentTargets_iff, leads_silentTargets_iff_silentStep]

/-- Further rounds find nothing more. -/
theorem closure_eq_of_lt {rounds : Nat} (h : a.stateCount < rounds) (seeds : List Nat) :
    ExtTreeSet.ofList (Search.reach a.graph.silentTargets rounds seeds) = a.closure seeds := by
  obtain ⟨more, rfl⟩ := Nat.exists_eq_add_of_le' (Nat.zero_lt_of_lt h)
  rw [closure, Search.reach_eq_of_le (fun _ => silentTargets_of_size_le) (Nat.le_of_lt_succ h)]
  rfl

/-! ## Laws of closures -/

theorem mem_closure_of_mem (h : q ∈ seeds) : q ∈ a.closure seeds :=
  mem_closure_iff_silentStep.mpr ⟨q, h, .refl⟩

/-- More seeds give a larger closure. -/
theorem closure_mono (h : ∀ q ∈ seeds, q ∈ more) (hq : q ∈ a.closure seeds) :
    q ∈ a.closure more := by
  obtain ⟨u, hu, hleads⟩ := mem_closure_iff_silentStep.mp hq
  exact mem_closure_iff_silentStep.mpr ⟨u, h u hu, hleads⟩

/-- A closure depends on which seeds there are, and not on their order or number. -/
theorem closure_congr (h : ∀ q, q ∈ more ↔ q ∈ seeds) : a.closure more = a.closure seeds :=
  ExtTreeSet.ext_mem fun _ => ⟨closure_mono fun q => (h q).mp, closure_mono fun q => (h q).mpr⟩

/-- A closure is closed. -/
theorem closure_closure (a : Automaton) (seeds : List Nat) :
    a.closure (a.closure seeds).toList = a.closure seeds := by
  refine ExtTreeSet.ext_mem fun q => ⟨fun hq => ?_, fun hq => ?_⟩
  · obtain ⟨u, hu, hlater⟩ := mem_closure_iff_silentStep.mp hq
    obtain ⟨seed, hseed, hleads⟩ := mem_closure_iff_silentStep.mp (ExtTreeSet.mem_toList.mp hu)
    exact mem_closure_iff_silentStep.mpr ⟨seed, hseed, hleads.trans hlater⟩
  · exact mem_closure_of_mem (ExtTreeSet.mem_toList.mpr hq)

theorem closure_append (a : Automaton) (seeds more : List Nat) :
    a.closure (seeds ++ more) = a.closure seeds ∪ a.closure more := by
  refine ExtTreeSet.ext_mem fun q => ?_
  rw [ExtTreeSet.mem_union_iff]
  simp only [mem_closure_iff_silentStep, List.mem_append, or_and_right, exists_or]

/-- An index without a state comes from the seeds only, if steps lead to states. -/
theorem mem_closure_iff_of_state?_eq_none
    (h : ∀ id, ∀ t ∈ a.transitions id, t.target < a.stateCount) (hq : a.state? q = none) :
    q ∈ a.closure seeds ↔ q ∈ seeds := by
  refine ⟨fun hmem => ?_, mem_closure_of_mem⟩
  obtain ⟨u, hu, hleads⟩ := mem_closure_iff_silentStep.mp hmem
  cases hleads with
  | refl => exact hu
  | tail _ hstep =>
    obtain ⟨t, ht, -, rfl⟩ := hstep
    have hle : a.stateCount ≤ t.target := Array.getElem?_eq_none_iff.mp hq
    exact absurd (h _ t ht) (Nat.not_lt_of_le hle)

/-- The closure of any seeds, states or not, holds exactly what silent steps lead to from a
seed, and the search for it comes to an end by itself.  An index without a state is in it if
and only if it is a seed.  So a closure holds its seeds, is closed, grows with the seeds,
does not depend on their order or number, and is taken seed by seed. -/
theorem closure_exact (h : a.Built) (seeds : List Nat) :
    (∀ rounds, a.stateCount < rounds →
      ExtTreeSet.ofList (Search.reach a.graph.silentTargets rounds seeds) = a.closure seeds) ∧
    (∀ q, q ∈ a.closure seeds ↔ ∃ u ∈ seeds, Relation.ReflTransGen a.SilentStep u q) ∧
    (∀ q, a.state? q = none → (q ∈ a.closure seeds ↔ q ∈ seeds)) ∧
    (∀ q ∈ seeds, q ∈ a.closure seeds) ∧
    a.closure (a.closure seeds).toList = a.closure seeds ∧
    (∀ more, (∀ q ∈ seeds, q ∈ more) → ∀ q ∈ a.closure seeds, q ∈ a.closure more) ∧
    (∀ more, (∀ q, q ∈ more ↔ q ∈ seeds) → a.closure more = a.closure seeds) ∧
    ∀ more, a.closure (seeds ++ more) = a.closure seeds ∪ a.closure more := by
  refine ⟨fun _ hrounds => closure_eq_of_lt hrounds seeds, fun _ => mem_closure_iff_silentStep,
    fun _ hq => mem_closure_iff_of_state?_eq_none h.wellShaped.target_lt hq,
    fun _ => mem_closure_of_mem, closure_closure a seeds, fun _ hmore _ => closure_mono hmore,
    fun _ => closure_congr, closure_append a seeds⟩

/-- Loops inside a loop, so that silent steps go round in circles. -/
def nestedLoops : Automaton :=
  ⟨"(a*b*)*", Flags.empty, 8, 9, ⟨#[
    ⟨0, [⟨⟨.literal, "a", 1⟩, 1⟩]⟩,
    ⟨1, [⟨Token.epsilon, 0⟩, ⟨Token.epsilon, 3⟩]⟩,
    ⟨2, [⟨Token.epsilon, 0⟩, ⟨Token.epsilon, 3⟩]⟩,
    ⟨3, [⟨Token.epsilon, 6⟩]⟩,
    ⟨4, [⟨⟨.literal, "b", 3⟩, 5⟩]⟩,
    ⟨5, [⟨Token.epsilon, 4⟩, ⟨Token.epsilon, 7⟩]⟩,
    ⟨6, [⟨Token.epsilon, 4⟩, ⟨Token.epsilon, 7⟩]⟩,
    ⟨7, [⟨Token.epsilon, 2⟩, ⟨Token.epsilon, 9⟩]⟩,
    ⟨8, [⟨Token.epsilon, 2⟩, ⟨Token.epsilon, 9⟩]⟩,
    ⟨9, []⟩]⟩⟩

/-- Silent steps lead on from a state of a circle, and an index without a state leads
nowhere. -/
theorem closure_exact_nestedLoops :
    compile "(a*b*)*" Flags.empty = .ok nestedLoops ∧
      9 ∈ nestedLoops.closure [6, 99, 6] ∧ 99 ∈ nestedLoops.closure [6, 99, 6] ∧
      98 ∉ nestedLoops.closure [6, 99, 6] ∧
      nestedLoops.closure [99, 6] = nestedLoops.closure [6, 99, 6] := by
  have hcompile : compile "(a*b*)*" Flags.empty = .ok nestedLoops := rfl
  obtain ⟨-, hmem, hnone, hseed, -, -, hcongr, -⟩ :=
    closure_exact (.inr ⟨_, _, hcompile⟩) [6, 99, 6]
  refine ⟨hcompile, (hmem 9).mpr ⟨6, by decide, ?_⟩, hseed 99 (by decide), ?_,
    hcongr [99, 6] fun q => by simp [or_comm]⟩
  · have hfirst : nestedLoops.SilentStep 6 7 := ⟨⟨Token.epsilon, 7⟩, by decide, rfl, rfl⟩
    have hsecond : nestedLoops.SilentStep 7 9 := ⟨⟨Token.epsilon, 9⟩, by decide, rfl, rfl⟩
    exact .tail (.single hfirst) hsecond
  · rw [hnone 98 rfl]
    decide

/-! ## Breadth-first order -/

/-- The states that the start leads to are listed breadth first, each once, and there is
only one such list.  The search comes to an end by itself. -/
theorem reachable_breadthFirst (a : Automaton) :
    (∀ rounds, a.stateCount < rounds →
      Search.reach a.graph.targets rounds [a.start] = a.reachable) ∧
    ∀ order, Search.BreadthFirst a.graph.targets a.start order ↔ order = a.reachable := by
  have hsearch := a.graph.breadthFirst_reachable a.start
  refine ⟨fun _ => a.graph.reach_targets_eq a.start, fun order => ⟨fun h => h.unique hsearch, ?_⟩⟩
  rintro rfl
  exact hsearch

theorem reachable_breadthFirst_nestedLoops :
    compile "(a*b*)*" Flags.empty = .ok nestedLoops ∧
      Search.BreadthFirst nestedLoops.graph.targets 8 [8, 2, 9, 0, 3, 1, 6, 4, 7, 5] :=
  ⟨rfl, ((reachable_breadthFirst nestedLoops).2 _).mpr (by decide +kernel)⟩

/-! ## Worklists -/

/-- A queue that starts with the start of an automaton runs empty after one step for each
state that the start leads to, and takes them in the order in which they are listed. -/
theorem queue_reachable {k : Nat} (hk : a.reachable.length ≤ k) :
    ((Search.Queue.step a.graph.targets)^[k] (.start a.start)).waiting = [] ∧
      ((Search.Queue.step a.graph.targets)^[k] (.start a.start)).order = a.reachable :=
  Search.Queue.iterate_step_start (fun _ => Graph.targets_of_size_le) hk

/-- A stack of seeds runs empty after at most one step for each seed and each silent step,
and finds the closure. -/
theorem stack_closure {k : Nat} (hk : seeds.length +
      ∑ v ∈ Finset.range a.stateCount, (a.graph.silentTargets v).length ≤ k) :
    ((Search.Stack.step a.graph.silentTargets)^[k] (.start seeds)).waiting = [] ∧
      ((Search.Stack.step a.graph.silentTargets)^[k] (.start seeds)).found = a.closure seeds :=
  Search.Stack.iterate_step_start (fun _ => silentTargets_of_size_le) hk

end Automaton

end PatternAutomata
