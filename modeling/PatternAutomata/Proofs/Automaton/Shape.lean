import PatternAutomata.Proofs.Builder.Ownership
import PatternAutomata.Proofs.Compile

/-!
# The shape of an automaton

Every automaton that a construction or a compilation gives has the same shape
(`Automaton.WellShaped`).  Its states stand at their indices and are exactly what the
start leads to.  All of them lie between the start and the accept.  Out of a state
lead a single step that reads an operand, or at most two silent steps to different
states.  Into every state but the start lead one or two steps.

In the end of a construction one fragment owns the whole graph, and the graph is
orderly.  The shape is what these two say together.
-/

namespace PatternAutomata

/-- The shape that a finished automaton has. -/
structure Automaton.WellShaped (a : Automaton) : Prop where
  /-- Every state stands at its index. -/
  id_eq : ∀ (id : Nat) (s : State), a.state? id = some s → s.id = id
  /-- Every step leads to a state. -/
  target_lt : ∀ id, ∀ t ∈ a.transitions id, t.target < a.stateCount
  /-- The start is a state. -/
  start_lt : a.start < a.stateCount
  /-- The accept is a state. -/
  accept_lt : a.accept < a.stateCount
  /-- The start and the accept are apart. -/
  start_ne_accept : a.start ≠ a.accept
  /-- No step leads into the start. -/
  start_fresh : ∀ id, ∀ t ∈ a.transitions id, t.target ≠ a.start
  /-- No step leads out of the accept. -/
  accept_final : a.transitions a.accept = []
  /-- Every state lies between the start and the accept. -/
  between : ∀ id < a.stateCount, Search.Leads a.graph.targets a.start id ∧
    Search.Leads a.graph.targets id a.accept
  /-- The start leads to every state, and the search for them lists each once. -/
  reachable_perm : a.reachable.Perm (List.range a.stateCount)
  /-- A single step that reads an operand leads out of a state, or at most two silent
  steps to different states. -/
  slim : ∀ id < a.stateCount, Slim (a.transitions id)
  /-- One or two steps lead into every state but the start. -/
  entered : ∀ id < a.stateCount, id ≠ a.start → a.graph.entries id = 1 ∨ a.graph.entries id = 2

variable {a : Automaton} {rpn : List Token} {flags : Flags}

/-- A state is known by its index. -/
theorem Automaton.WellShaped.map_id_state? (h : a.WellShaped) (id : Nat) :
    (a.state? id).map State.id = if id < a.stateCount then some id else none := by
  by_cases hid : id < a.stateCount
  · rw [if_pos hid]
    have hstate : a.state? id = some a.graph.states[id] := Array.getElem?_eq_getElem hid
    rw [hstate, Option.map_some, h.id_eq id _ hstate]
  · rw [if_neg hid]
    have hstate : a.state? id = none := Array.getElem?_eq_none (Nat.le_of_not_lt hid)
    rw [hstate, Option.map_none]

/-- What is led to from elsewhere is entered. -/
theorem Search.Leads.entries_pos {g : Graph} {root id : Nat} (h : Leads g.targets root id)
    (hne : id ≠ root) : 0 < g.entries id := by
  cases h with
  | refl => exact absurd rfl hne
  | tail _ hstep =>
    obtain ⟨t, ht, rfl⟩ := List.mem_map.mp hstep
    exact Graph.entries_pos ht

/-- An orderly graph that one fragment owns is well shaped. -/
theorem Automaton.wellShaped_of_owns (horderly : a.graph.Orderly)
    (howns : a.graph.Owns ⟨a.start, a.accept⟩ {id | id < a.graph.size}) : a.WellShaped where
  id_eq := horderly.id_eq
  target_lt := horderly.target_lt
  start_lt := howns.start_mem
  accept_lt := howns.accept_mem
  start_ne_accept := howns.start_ne_accept
  start_fresh := howns.start_fresh
  accept_final := howns.accept_final
  between id hid := ⟨howns.leads_from id hid, howns.leads_to id hid⟩
  reachable_perm := by
    refine (List.perm_ext_iff_of_nodup (Graph.nodup_reachable _ _) List.nodup_range).mpr fun id => ?_
    rw [List.mem_range]
    exact howns.mem_iff
  slim id _ := horderly.slim id
  entered id hid hne := by
    have hpos := Search.Leads.entries_pos (howns.leads_from id hid) hne
    have hle := horderly.entries_le id
    omega

/-- The one fragment in the end of a construction owns the whole graph. -/
theorem wellShaped_of_build (h : build rpn flags = .ok a) : a.WellShaped := by
  rw [build_eq] at h
  obtain ⟨⟨g, stack⟩, hrun, hfinish⟩ := bind_eq_ok_iff.mp h
  obtain ⟨horderly, regions, hall, -, hcover⟩ := Builder.sound_of_foldlM hrun
  cases hall with
  | nil => cases hfinish
  | @cons f region fs regions howns hrest =>
    cases hrest with
    | cons => cases hfinish
    | nil =>
      cases hfinish
      have hregion : region = {id | id < g.size} := by
        ext id
        have hid := hcover id
        rw [List.exists_mem_cons_iff, or_iff_left (by simp)] at hid
        exact hid.symm
      rw [hregion] at howns
      exact Automaton.wellShaped_of_owns horderly howns

/-- The pattern of an automaton has no part in its shape. -/
theorem wellShaped_of_compile {p : String} (h : compile p flags = .ok a) : a.WellShaped := by
  obtain ⟨ts, rpn, b, -, -, hbuild, rfl⟩ := compile_eq_ok h
  have hb := wellShaped_of_build hbuild
  exact { hb with }

/-- An automaton comes out of a construction or of a compilation. -/
def Automaton.Built (a : Automaton) : Prop :=
  (∃ rpn flags, build rpn flags = .ok a) ∨ ∃ p flags, compile p flags = .ok a

theorem Automaton.Built.wellShaped (h : a.Built) : a.WellShaped := by
  cases h with
  | inl hbuild =>
    obtain ⟨rpn, flags, h⟩ := hbuild
    exact wellShaped_of_build h
  | inr hcompile =>
    obtain ⟨p, flags, h⟩ := hcompile
    exact wellShaped_of_compile h

/-- Whether built from a postorder or compiled from a pattern, an automaton is well
shaped. -/
theorem wellShaped_of_build_or_compile
    (h : (∃ rpn flags, build rpn flags = .ok a) ∨ ∃ p flags, compile p flags = .ok a) :
    a.WellShaped := by
  rcases h with ⟨rpn, flags, h⟩ | ⟨p, flags, h⟩
  · exact wellShaped_of_build h
  · exact wellShaped_of_compile h

/-- The automaton of a loop inside a loop, with a copy of the inner one. -/
def starPlusAutomaton : Automaton :=
  ⟨"a*+", Flags.empty, 2, 9, ⟨#[
    ⟨0, [⟨⟨.literal, "a", 0⟩, 1⟩]⟩,
    ⟨1, [⟨Token.epsilon, 0⟩, ⟨Token.epsilon, 3⟩]⟩,
    ⟨2, [⟨Token.epsilon, 0⟩, ⟨Token.epsilon, 3⟩]⟩,
    ⟨3, [⟨Token.epsilon, 8⟩]⟩,
    ⟨4, [⟨Token.epsilon, 5⟩, ⟨Token.epsilon, 6⟩]⟩,
    ⟨5, [⟨⟨.literal, "a", 0⟩, 7⟩]⟩,
    ⟨6, [⟨Token.epsilon, 4⟩, ⟨Token.epsilon, 9⟩]⟩,
    ⟨7, [⟨Token.epsilon, 5⟩, ⟨Token.epsilon, 6⟩]⟩,
    ⟨8, [⟨Token.epsilon, 4⟩, ⟨Token.epsilon, 9⟩]⟩,
    ⟨9, []⟩]⟩⟩

theorem wellShaped_of_build_or_compile_starPlus :
    compile "a*+" Flags.empty = .ok starPlusAutomaton ∧ starPlusAutomaton.WellShaped := by
  have hcompile : compile "a*+" Flags.empty = .ok starPlusAutomaton := rfl
  exact ⟨hcompile, wellShaped_of_build_or_compile (.inr ⟨_, _, hcompile⟩)⟩

end PatternAutomata
