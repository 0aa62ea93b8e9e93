import Mathlib.Data.List.Flatten
import Mathlib.Data.List.Perm.Basic
import PatternAutomata.Proofs.Graph.Copy

/-!
# Orderly graphs

A graph is orderly if every state stands at its own index, every step leads to a
state, few steps lead out of a state, and few steps lead into it (`Graph.Orderly`).
Out of a state lead a single step that reads an operand, or at most two silent steps
to different states (`Slim`).  Into a state lead at most two steps, counted over the
whole graph (`Graph.entries`).

A new state keeps a graph orderly (`Orderly.grow`).  So does a new step, if its
source stays slim and its target has an entry to spare (`Orderly.link`).  A copy has
as many steps out of its states as there were, and not more into them than there
were (`Orderly.copied`).
-/

namespace PatternAutomata

/-! ## All transitions -/

namespace Graph

variable {g : Graph} {source target id : Nat} {label : Token} {order : List Nat}

theorem allTransitions_grow (g : Graph) : g.grow.allTransitions = g.allTransitions := by
  simp [allTransitions, grow]

/-- A new step adds itself to all transitions. -/
theorem allTransitions_link_perm (h : source < g.size) (label : Token) (target : Nat) :
    (g.link source label target).allTransitions.Perm (⟨label, target⟩ :: g.allTransitions) := by
  obtain ⟨before, s, behind, hstates, -, hmodify⟩ := List.exists_of_modify
    (fun s : State => { s with transitions := s.transitions ++ [⟨label, target⟩] })
    (show source < g.states.toList.length from h)
  simp only [allTransitions, link, Array.toList_modify, hmodify]
  rw [hstates]
  simp only [List.flatMap_append, List.flatMap_cons, List.append_assoc, List.singleton_append]
  rw [← List.append_assoc, ← List.append_assoc (List.flatMap _ before)]
  exact List.perm_middle

/-- The transitions of a larger graph are those of the graph and those of the
copies. -/
theorem allTransitions_copied (g : Graph) (order : List Nat) :
    (g.copied order).allTransitions =
      g.allTransitions ++ (order.flatMap g.transitions).map (.rename (g.renamed order)) := by
  have hcopies : (g.copies order).flatMap State.transitions =
      (order.zipIdx.map Prod.fst).flatMap fun id =>
        (g.transitions id).map (.rename (g.renamed order)) := by
    simp only [copies, List.flatMap_map]
  rw [List.zipIdx_map_fst] at hcopies
  rw [allTransitions, states_copied, List.flatMap_append, hcopies, List.map_flatMap, allTransitions]

/-- All transitions are the steps out of the states, one state after the other. -/
theorem allTransitions_eq (g : Graph) :
    g.allTransitions = (List.range g.size).flatMap g.transitions := by
  have hstates : (List.range g.size).map g.transitions = g.states.toList.map State.transitions := by
    refine List.ext_getElem (by simp [size]) fun i hi hi' => ?_
    have hlt : i < g.states.size := by simpa using hi'
    simp [transitions, hlt]
  rw [allTransitions, List.flatMap, List.flatMap, hstates]

/-- Some states have no more steps of a sort than all states. -/
theorem countP_flatMap_le (hnodup : order.Nodup) (hlt : ∀ id ∈ order, id < g.size)
    (p : Transition → Bool) :
    (order.flatMap g.transitions).countP p ≤ g.allTransitions.countP p := by
  have hsubperm : order.Subperm (List.range g.size) :=
    List.subperm_of_subset hnodup fun id hid => List.mem_range.mpr (hlt id hid)
  obtain ⟨sorted, hperm, hsublist⟩ := hsubperm
  rw [allTransitions_eq, ← (hperm.flatMap_right g.transitions).countP_eq p]
  exact (hsublist.flatMap g.transitions).countP_le

theorem mem_allTransitions {t : Transition} :
    t ∈ g.allTransitions ↔ ∃ id, t ∈ g.transitions id := by
  rw [allTransitions_eq, List.mem_flatMap]
  constructor
  · rintro ⟨id, -, ht⟩
    exact ⟨id, ht⟩
  · rintro ⟨id, ht⟩
    exact ⟨id, List.mem_range.mpr (lt_size_of_mem ht), ht⟩

/-- A state of a larger graph is an old one or a copy. -/
theorem copied_cases (g : Graph) (hnodup : order.Nodup) (id : Nat) :
    id < g.size ∨ (∃ old ∈ order, id = g.renamed order old) ∨ (g.copied order).size ≤ id := by
  rcases Nat.lt_or_ge id g.size with hold | hnew
  · exact .inl hold
  · rcases Nat.lt_or_ge (id - g.size) order.length with hlt | hle
    · refine .inr (.inl ⟨order[id - g.size], List.getElem_mem hlt, ?_⟩)
      rw [renamed, hnodup.idxOf_getElem]
      omega
    · rw [size_copied]
      exact .inr (.inr (by omega))

/-! ## Entries -/

/-- The number of steps into a state. -/
def entries (g : Graph) (id : Nat) : Nat := g.allTransitions.countP fun t => t.target == id

@[simp] theorem entries_grow (g : Graph) (id : Nat) : g.grow.entries id = g.entries id := by
  rw [entries, allTransitions_grow, entries]

theorem entries_link (h : source < g.size) (label : Token) (target id : Nat) :
    (g.link source label target).entries id = g.entries id + if target = id then 1 else 0 := by
  rw [entries, (allTransitions_link_perm h label target).countP_eq, List.countP_cons, entries]
  simp only [beq_iff_eq]

theorem entries_eq_zero_iff :
    g.entries id = 0 ↔ ∀ source, ∀ t ∈ g.transitions source, t.target ≠ id := by
  simp only [entries, List.countP_eq_zero, mem_allTransitions, beq_iff_eq]
  exact ⟨fun h source t ht => h t ⟨source, ht⟩, fun h t ⟨source, ht⟩ => h source t ht⟩

/-- Into a state of a copy lead its old steps and those whose target is renamed to it. -/
theorem entries_copied (g : Graph) (order : List Nat) (id : Nat) :
    (g.copied order).entries id = g.entries id +
      (order.flatMap g.transitions).countP fun t => g.renamed order t.target == id := by
  rw [entries, allTransitions_copied, List.countP_append, List.countP_map]
  rfl

/-- A step into a state is counted. -/
theorem entries_pos {t : Transition} (ht : t ∈ g.transitions source) : 0 < g.entries t.target := by
  refine Nat.pos_of_ne_zero fun hzero => ?_
  exact entries_eq_zero_iff.mp hzero source t ht rfl

end Graph

/-! ## Steps out of a state -/

/-- The steps out of a state are a single step that reads an operand, or at most two
silent steps to different states. -/
def Slim (ts : List Transition) : Prop :=
  (∃ t, ts = [t] ∧ t.label.kind.isOperand = true) ∨
    ts.length ≤ 2 ∧ (∀ t ∈ ts, t.label = Token.epsilon) ∧ (ts.map Transition.target).Nodup

theorem slim_nil : Slim [] := .inr (by simp)

theorem slim_silent (target : Nat) : Slim [⟨Token.epsilon, target⟩] := .inr (by simp)

theorem slim_fork {first second : Nat} (h : first ≠ second) :
    Slim [⟨Token.epsilon, first⟩, ⟨Token.epsilon, second⟩] := .inr (by simp [h])

/-- New targets that stay apart keep the steps out of a state slim. -/
theorem Slim.rename {names : Nat → Nat} {ts : List Transition} (h : Slim ts)
    (hinj : ∀ t ∈ ts, ∀ u ∈ ts, names t.target = names u.target → t.target = u.target) :
    Slim (ts.map (.rename names)) := by
  rcases h with ⟨t, rfl, hkind⟩ | ⟨hlength, hsilent, hdistinct⟩
  · exact .inl ⟨t.rename names, rfl, hkind⟩
  · refine .inr ⟨by rwa [List.length_map], ?_, ?_⟩
    · intro t ht
      obtain ⟨u, hu, rfl⟩ := List.mem_map.mp ht
      exact hsilent u hu
    · have htargets : (ts.map (.rename names)).map Transition.target =
          (ts.map Transition.target).map names := by
        simp only [List.map_map]
        rfl
      rw [htargets]
      refine hdistinct.map_on ?_
      intro x hx y hy heq
      obtain ⟨t, ht, rfl⟩ := List.mem_map.mp hx
      obtain ⟨u, hu, rfl⟩ := List.mem_map.mp hy
      exact hinj t ht u hu heq

/-! ## Orderly graphs -/

namespace Graph

/-- States stand at their indices, steps lead to states, and no state has many steps
out of it or into it. -/
structure Orderly (g : Graph) : Prop where
  /-- Every state stands at its index. -/
  id_eq : ∀ (id : Nat) (s : State), g.states[id]? = some s → s.id = id
  /-- Every step leads to a state. -/
  target_lt : ∀ id, ∀ t ∈ g.transitions id, t.target < g.size
  /-- Few steps lead out of a state. -/
  slim : ∀ id, Slim (g.transitions id)
  /-- Few steps lead into a state. -/
  entries_le : ∀ id, g.entries id ≤ 2

theorem orderly_empty : empty.Orderly where
  id_eq id s h := by simp [empty] at h
  target_lt id t ht := by simp at ht
  slim _ := slim_nil
  entries_le _ := Nat.zero_le 2

namespace Orderly

variable {g : Graph} {source target id : Nat} {label : Token} {order : List Nat}

/-- No step leads to what is not there yet. -/
theorem entries_eq_zero (h : g.Orderly) (hid : g.size ≤ id) : g.entries id = 0 := by
  rw [entries_eq_zero_iff]
  intro source t ht
  exact Nat.ne_of_lt (Nat.lt_of_lt_of_le (h.target_lt source t ht) hid)

theorem grow (h : g.Orderly) : g.grow.Orderly where
  id_eq id s hs := by
    simp only [Graph.grow, Array.getElem?_push] at hs
    split at hs
    · next heq =>
      cases hs
      exact heq.symm
    · exact h.id_eq id s hs
  target_lt id t ht := by
    rw [transitions_grow] at ht
    rw [size_grow]
    exact Nat.lt_succ_of_lt (h.target_lt id t ht)
  slim id := by
    rw [transitions_grow]
    exact h.slim id
  entries_le id := by
    rw [entries_grow]
    exact h.entries_le id

/-- A step may be added between two states if the source stays slim and the target
has an entry to spare. -/
theorem link (h : g.Orderly) (hsource : source < g.size) (htarget : target < g.size)
    (hslim : Slim (g.transitions source ++ [⟨label, target⟩])) (hentry : g.entries target ≤ 1) :
    (g.link source label target).Orderly where
  id_eq id s hs := by
    simp only [Graph.link, Array.getElem?_modify] at hs
    split at hs
    · obtain ⟨old, hold, rfl⟩ := Option.map_eq_some_iff.mp hs
      exact h.id_eq id old hold
    · exact h.id_eq id s hs
  target_lt id t ht := by
    rw [size_link]
    rcases mem_transitions_link.mp ht with hold | ⟨-, rfl⟩
    · exact h.target_lt id t hold
    · exact htarget
  slim id := by
    by_cases heq : id = source
    · rwa [heq, transitions_link, if_pos ⟨rfl, hsource⟩]
    · rw [transitions_link_of_ne heq]
      exact h.slim id
  entries_le id := by
    rw [entries_link hsource]
    split
    · next heq => rw [← heq]; omega
    · exact h.entries_le id

/-- No state of a copy is entered more than twice.  A new state is entered as often as the
old one, and by new states only. -/
theorem entries_copied_le (h : g.Orderly) (hnodup : order.Nodup) (hlt : ∀ id ∈ order, id < g.size)
    (hclosed : g.Closed {id | id ∈ order}) (id : Nat) : (g.copied order).entries id ≤ 2 := by
  have hmem : ∀ t ∈ order.flatMap g.transitions, t.target ∈ order := by
    intro t ht
    obtain ⟨source, hsource, ht⟩ := List.mem_flatMap.mp ht
    exact hclosed source hsource t ht
  have hnone : id ∉ g.renamed order '' {id | id ∈ order} →
      (order.flatMap g.transitions).countP (fun t => g.renamed order t.target == id) = 0 := by
    intro hid
    rw [List.countP_eq_zero]
    intro t ht heq
    exact hid ⟨t.target, hmem t ht, beq_iff_eq.mp heq⟩
  rw [entries_copied]
  rcases g.copied_cases hnodup id with hold | ⟨old, hold, rfl⟩ | hnew
  · rw [hnone, Nat.add_zero]
    · exact h.entries_le id
    · rintro ⟨old, -, rfl⟩
      exact absurd hold (Nat.not_lt_of_le (Nat.le_add_right _ _))
  · have hle : g.size ≤ g.renamed order old := Nat.le_add_right _ _
    rw [h.entries_eq_zero hle, Nat.zero_add]
    refine Nat.le_trans ?_ (h.entries_le old)
    refine Nat.le_trans (Nat.le_of_eq ?_) (countP_flatMap_le hnodup hlt fun t => t.target == old)
    refine List.countP_congr fun t ht => ?_
    rw [beq_iff_eq, beq_iff_eq]
    exact renamed_inj (hmem t ht)
  · rw [size_copied] at hnew
    rw [h.entries_eq_zero (by omega), hnone]
    · exact Nat.zero_le 2
    · rintro ⟨old, hold, rfl⟩
      have := List.idxOf_lt_length_of_mem hold
      simp only [renamed] at hnew
      omega

/-- A copy of states that lead to one another only has the steps that these states
have. -/
theorem copied (h : g.Orderly) (hnodup : order.Nodup) (hlt : ∀ id ∈ order, id < g.size)
    (hclosed : g.Closed {id | id ∈ order}) : (g.copied order).Orderly where
  id_eq id s hs := by
    rw [← Array.getElem?_toList, states_copied] at hs
    rcases Nat.lt_or_ge id g.states.toList.length with hold | hnew
    · rw [List.getElem?_append_left hold, Array.getElem?_toList] at hs
      exact h.id_eq id s hs
    · rw [List.getElem?_append_right hnew] at hs
      simp only [copies, List.getElem?_map, Option.map_eq_some_iff] at hs
      obtain ⟨⟨old, i⟩, hi, rfl⟩ := hs
      rw [List.getElem?_zipIdx, Option.map_eq_some_iff] at hi
      obtain ⟨_, -, heq⟩ := hi
      cases heq
      simp only [size, Array.length_toList] at hnew ⊢
      omega
  target_lt id t ht := by
    rw [size_copied]
    rcases g.copied_cases hnodup id with hold | ⟨old, hmem, rfl⟩ | hnone
    · rw [transitions_copied_of_lt hold] at ht
      exact Nat.lt_add_right _ (h.target_lt id t ht)
    · rw [transitions_copied_renamed hmem] at ht
      obtain ⟨u, hu, rfl⟩ := List.mem_map.mp ht
      exact Nat.add_lt_add_left (List.idxOf_lt_length_of_mem (hclosed old hmem u hu)) _
    · rw [transitions_of_size_le hnone] at ht
      cases ht
  slim id := by
    rcases g.copied_cases hnodup id with hold | ⟨old, hmem, rfl⟩ | hnone
    · rw [transitions_copied_of_lt hold]
      exact h.slim id
    · rw [transitions_copied_renamed hmem]
      refine (h.slim old).rename fun t ht u _ heq => ?_
      exact (renamed_inj (hclosed old hmem t ht)).mp heq
    · rw [transitions_of_size_le hnone]
      exact slim_nil
  entries_le := h.entries_copied_le hnodup hlt hclosed

end Orderly

end Graph

end PatternAutomata
