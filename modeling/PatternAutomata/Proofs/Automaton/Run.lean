import Mathlib.Data.List.Basic
import PatternAutomata.Automaton.Run
import PatternAutomata.Proofs.Graph.Copy

/-!
# Reading a word is walking

The set that an automaton keeps while it reads holds the ends of all walks that
spell what has been read (`mem_run_iff`).  So a word is accepted if and only if a
walk from the start to the accept spells it (`accepts_iff`).

The set after a label is a closure, so all that silent steps lead to is in it
already.  Such a set is called settled, and only a settled set can be read on from:
a walk may begin with silent steps.
-/

namespace PatternAutomata

open Std (ExtTreeSet)

/-! ## Silent walks -/

section Silent

variable {g : Graph} {u v : Nat} {label : String}

theorem mem_silentTargets :
    v ∈ g.silentTargets u ↔ ∃ t ∈ g.transitions u, t.isEpsilon = true ∧ t.target = v := by
  simp [Graph.silentTargets, and_assoc]

theorem silentTargets_of_size_le (h : g.size ≤ u) : g.silentTargets u = [] := by
  rw [Graph.silentTargets, Graph.transitions_of_size_le h, List.filter_nil, List.map_nil]

/-- Silent steps lead along the walks that spell nothing. -/
theorem leads_silentTargets_iff : Search.Leads g.silentTargets u v ↔ Walk g u [] v := by
  constructor
  · intro h
    induction h using Relation.ReflTransGen.head_induction_on with
    | refl => exact .here v
    | head hstep _ ih =>
      obtain ⟨t, mem, eps, rfl⟩ := mem_silentTargets.mp hstep
      exact .silent mem eps ih
  · intro walk
    generalize hword : ([] : List String) = word at walk
    induction walk with
    | here => exact .refl
    | silent mem eps _ ih => exact .head (mem_silentTargets.mpr ⟨_, mem, eps, rfl⟩) (ih hword)
    | read => cases hword

/-- A walk that spells one label reads it after silent steps and before others. -/
theorem walk_singleton_iff : Walk g u [label] v ↔ ∃ id, Walk g u [] id ∧
    ∃ t ∈ g.transitions id, Automaton.reads label t = true ∧ Walk g t.target [] v := by
  have hreads : ∀ t : Transition, Automaton.reads label t = true ↔
      t.isEpsilon = false ∧ t.label.text = label := by
    intro t
    simp [Automaton.reads]
  constructor
  · intro walk
    generalize hword : [label] = word at walk
    induction walk with
    | here => cases hword
    | silent mem eps _ ih =>
      obtain ⟨id, first, hid⟩ := ih hword
      exact ⟨id, .silent mem eps first, hid⟩
    | @read id last t word mem eps rest =>
      injection hword with hlabel hword
      rw [← hword] at rest
      exact ⟨id, .here id, t, mem, (hreads t).mpr ⟨eps, hlabel.symm⟩, rest⟩
  · rintro ⟨id, first, t, mem, hlabel, rest⟩
    obtain ⟨eps, rfl⟩ := (hreads t).mp hlabel
    exact first.append (.read mem eps rest)

end Silent

namespace Automaton

variable {a : Automaton} {current : ExtTreeSet Nat} {seeds : List Nat} {q : Nat} {label : String}
variable {w : List String}

/-! ## Settled sets -/

/-- All that silent steps lead to from the set is in the set. -/
def Settled (a : Automaton) (current : ExtTreeSet Nat) : Prop :=
  ∀ u ∈ current, ∀ v, Walk a.graph u [] v → v ∈ current

theorem mem_closure_iff : q ∈ a.closure seeds ↔ ∃ u ∈ seeds, Walk a.graph u [] q := by
  rw [closure, ExtTreeSet.mem_ofList, List.contains_iff_mem, stateCount,
    Search.mem_reach_iff fun v hv => silentTargets_of_size_le hv]
  simp only [leads_silentTargets_iff]

theorem settled_closure (a : Automaton) (seeds : List Nat) : a.Settled (a.closure seeds) := by
  intro u hu v walk
  obtain ⟨seed, hseed, first⟩ := mem_closure_iff.mp hu
  exact mem_closure_iff.mpr ⟨seed, hseed, first.append walk⟩

theorem settled_initial (a : Automaton) : a.Settled a.initial := settled_closure a _

theorem settled_feed (a : Automaton) (current : ExtTreeSet Nat) (label : String) :
    a.Settled (a.feed current label) := settled_closure a _

/-- One more label leads to where a walk that spells it ends. -/
theorem mem_feed_iff (h : a.Settled current) :
    q ∈ a.feed current label ↔ ∃ u ∈ current, Walk a.graph u [label] q := by
  rw [feed, mem_closure_iff]
  constructor
  · rintro ⟨target, htarget, walk⟩
    obtain ⟨u, hu, t, ht, hreads, rfl⟩ := mem_moves.mp htarget
    exact ⟨u, hu, walk_singleton_iff.mpr ⟨u, .here u, t, ht, hreads, walk⟩⟩
  · rintro ⟨u, hu, walk⟩
    obtain ⟨id, first, t, ht, hreads, rest⟩ := walk_singleton_iff.mp walk
    exact ⟨t.target, mem_moves.mpr ⟨id, h u hu id first, t, ht, hreads, rfl⟩, rest⟩

/-! ## Words -/

/-- A word leads to where a walk that spells it ends. -/
theorem mem_foldl_feed_iff (h : a.Settled current) :
    q ∈ w.foldl a.feed current ↔ ∃ u ∈ current, Walk a.graph u w q := by
  induction w generalizing current with
  | nil =>
    rw [List.foldl_nil]
    constructor
    · exact fun hq => ⟨q, hq, .here q⟩
    · rintro ⟨u, hu, walk⟩
      exact h u hu q walk
  | cons label w ih =>
    rw [List.foldl_cons, ih (settled_feed a _ _)]
    constructor
    · rintro ⟨u, hu, rest⟩
      obtain ⟨u', hu', first⟩ := (mem_feed_iff h).mp hu
      exact ⟨u', hu', first.append rest⟩
    · rintro ⟨u, hu, walk⟩
      rw [← List.singleton_append] at walk
      obtain ⟨u', first, rest⟩ := walk.exists_of_append
      exact ⟨u', (mem_feed_iff h).mpr ⟨u, hu, first⟩, rest⟩

theorem mem_run_iff : q ∈ a.run w ↔ Walk a.graph a.start w q := by
  rw [run, mem_foldl_feed_iff (settled_initial a)]
  constructor
  · rintro ⟨u, hu, walk⟩
    obtain ⟨seed, hseed, first⟩ := mem_closure_iff.mp hu
    rw [List.mem_singleton.mp hseed] at first
    exact first.append walk
  · intro walk
    exact ⟨a.start, mem_closure_iff.mpr ⟨a.start, List.mem_singleton_self _, .here _⟩, walk⟩

/-- A word is accepted if and only if a walk to the accept spells it. -/
theorem accepts_iff : a.accepts w = true ↔ Walk a.graph a.start w a.accept := by
  rw [accepts, accepting, ExtTreeSet.contains_iff_mem, mem_run_iff]

end Automaton

end PatternAutomata
