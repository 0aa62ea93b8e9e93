import Mathlib.Order.Interval.Set.Basic
import PatternAutomata.Proofs.Graph.Orderly

/-!
# Fragments that own their states

A fragment owns a region if the region holds its two ends, no step leaves it, and
every state in it lies between the two ends.  No step leads into the start and none
out of the accept, so a larger fragment can use both freely (`Graph.Owns`).

Each operation turns operands that own disjoint regions into a fragment that owns
both regions and all new states.  The lemmas say this for one operation each, with
the new states as an interval of indices.
-/

namespace PatternAutomata.Graph

variable {g g' : Graph} {f lower upper inner : Fragment} {A B region : Set Nat} {a b id : Nat}
variable {t : Transition} {order : List Nat}

/-- The fragment has the region to itself, and all of the region lies between its
start and its accept. -/
structure Owns (g : Graph) (f : Fragment) (region : Set Nat) : Prop where
  /-- The region holds the start. -/
  start_mem : f.start ∈ region
  /-- The region holds the accept. -/
  accept_mem : f.accept ∈ region
  /-- The two ends are apart. -/
  start_ne_accept : f.start ≠ f.accept
  /-- The region holds states only. -/
  lt_size : ∀ id ∈ region, id < g.size
  /-- No step leaves the region. -/
  closed : g.Closed region
  /-- The start leads to all of the region. -/
  leads_from : ∀ id ∈ region, Search.Leads g.targets f.start id
  /-- All of the region leads to the accept. -/
  leads_to : ∀ id ∈ region, Search.Leads g.targets id f.accept
  /-- No step leads into the start. -/
  start_fresh : ∀ source, ∀ t ∈ g.transitions source, t.target ≠ f.start
  /-- No step leads out of the accept. -/
  accept_final : g.transitions f.accept = []

/-! ## Leading on -/

theorem leads_of_mem (ht : t ∈ g.transitions id) : Search.Leads g.targets id t.target :=
  .single (List.mem_map_of_mem ht)

/-- What leads on inside a closed region still does when the region keeps its steps. -/
theorem Closed.leads (h : g.Closed region)
    (hsteps : ∀ id ∈ region, ∀ t ∈ g.transitions id, t ∈ g'.transitions id) (ha : a ∈ region)
    (hleads : Search.Leads g.targets a b) : Search.Leads g'.targets a b := by
  revert ha
  induction hleads using Relation.ReflTransGen.head_induction_on with
  | refl => exact fun _ => .refl
  | @head a c hstep _ ih =>
    intro ha
    obtain ⟨t, ht, rfl⟩ := List.mem_map.mp hstep
    exact (leads_of_mem (hsteps a ha t ht)).trans (ih (h a ha t ht))

/-- What leads on in a closed region stays in it. -/
theorem Closed.mem_of_leads (h : g.Closed region) (ha : a ∈ region)
    (hleads : Search.Leads g.targets a b) : b ∈ region := by
  induction hleads with
  | refl => exact ha
  | @tail b c _ hstep ih =>
    obtain ⟨t, ht, rfl⟩ := List.mem_map.mp hstep
    exact h b ih t ht

namespace Owns

/-- All of a region that keeps its steps still lies between the two ends. -/
theorem between (h : g.Owns f region)
    (hsteps : ∀ id ∈ region, ∀ t ∈ g.transitions id, t ∈ g'.transitions id) :
    ∀ id ∈ region, Search.Leads g'.targets f.start id ∧ Search.Leads g'.targets id f.accept := by
  intro id hid
  exact ⟨h.closed.leads hsteps h.start_mem (h.leads_from id hid),
    h.closed.leads hsteps hid (h.leads_to id hid)⟩

/-- With a step into the start and a step out of the accept, all of a region lies
between the source of the one and the target of the other. -/
theorem through (h : g.Owns f region)
    (hsteps : ∀ id ∈ region, ∀ t ∈ g.transitions id, t ∈ g'.transitions id)
    (henter : ⟨Token.epsilon, f.start⟩ ∈ g'.transitions a)
    (hexit : ⟨Token.epsilon, b⟩ ∈ g'.transitions f.accept) :
    ∀ id ∈ region, Search.Leads g'.targets a id ∧ Search.Leads g'.targets id b := by
  intro id hid
  obtain ⟨hfrom, hto⟩ := h.between hsteps id hid
  exact ⟨(leads_of_mem henter).trans hfrom, hto.trans (leads_of_mem hexit)⟩

/-- No step is counted into the start. -/
theorem entries_start (h : g.Owns f region) : g.entries f.start = 0 :=
  entries_eq_zero_iff.mpr h.start_fresh

/-- A region is what the start of its fragment leads to. -/
theorem mem_iff (h : g.Owns f region) : id ∈ g.reachable f.start ↔ id ∈ region := by
  rw [mem_reachable_iff]
  exact ⟨h.closed.mem_of_leads h.start_mem, h.leads_from id⟩

end Owns

/-! ## New ends -/

theorem mem_Ico_add_two : id ∈ Set.Ico g.size (g.size + 2) ↔ id = g.size ∨ id = g.size + 1 := by
  rw [Set.mem_Ico]
  omega

/-- Two new states around a region are the ends of a fragment that owns them and the
region, if all of the region lies between them. -/
theorem owns_around (h : g.Orderly) (hlt : ∀ id ∈ A, id < g.size) (hclosed : g.Closed A)
    (hsize : g'.size = g.size + 2)
    (hsteps : ∀ id, ∀ t ∈ g'.transitions id,
      t ∈ g.transitions id ∨ t.target ∈ A ∨ t.target = g.size + 1)
    (hthrough : ∀ id ∈ A,
      Search.Leads g'.targets g.size id ∧ Search.Leads g'.targets id (g.size + 1))
    (hacross : Search.Leads g'.targets g.size (g.size + 1))
    (hfinal : g'.transitions (g.size + 1) = []) :
    g'.Owns ⟨g.size, g.size + 1⟩ (A ∪ Set.Ico g.size (g.size + 2)) where
  start_mem := .inr (mem_Ico_add_two.mpr (.inl rfl))
  accept_mem := .inr (mem_Ico_add_two.mpr (.inr rfl))
  start_ne_accept := Nat.ne_of_lt (Nat.lt_succ_self g.size)
  lt_size := by
    intro id hid
    rw [hsize]
    cases hid with
    | inl hid => exact Nat.lt_add_right 2 (hlt id hid)
    | inr hid => exact (Set.mem_Ico.mp hid).2
  closed := by
    intro id hid t ht
    rcases hsteps id t ht with hold | hinside | haccept
    · cases hid with
      | inl hid => exact .inl (hclosed id hid t hold)
      | inr hid =>
        rw [transitions_of_size_le (Set.mem_Ico.mp hid).1] at hold
        cases hold
    · exact .inl hinside
    · exact .inr (mem_Ico_add_two.mpr (.inr haccept))
  leads_from := by
    intro id hid
    cases hid with
    | inl hid => exact (hthrough id hid).1
    | inr hid =>
      cases mem_Ico_add_two.mp hid with
      | inl heq => rw [heq]; exact .refl
      | inr heq => rw [heq]; exact hacross
  leads_to := by
    intro id hid
    cases hid with
    | inl hid => exact (hthrough id hid).2
    | inr hid =>
      cases mem_Ico_add_two.mp hid with
      | inl heq => rw [heq]; exact hacross
      | inr heq => rw [heq]; exact .refl
  start_fresh := by
    intro source t ht
    rcases hsteps source t ht with hold | hinside | haccept
    · exact Nat.ne_of_lt (h.target_lt source t hold)
    · exact Nat.ne_of_lt (hlt _ hinside)
    · rw [haccept]
      exact Nat.succ_ne_self g.size
  accept_final := hfinal

/-! ## Operands -/

theorem transitions_atom_size_succ (label : Token) :
    (g.atom label).1.transitions (g.size + 1) = [] := by
  rw [transitions_atom_of_ne label (by omega), transitions_of_size_le (by omega)]

/-- An operand owns two new states. -/
theorem owns_atom (h : g.Orderly) (label : Token) :
    (g.atom label).1.Owns (g.atom label).2 (Set.Ico g.size (g.size + 2)) := by
  have hstep : (⟨label, g.size + 1⟩ : Transition) ∈ (g.atom label).1.transitions g.size := by
    rw [transitions_atom_size]
    exact List.mem_singleton_self _
  rw [← Set.empty_union (Set.Ico g.size (g.size + 2))]
  refine owns_around h (fun _ hid => absurd hid (Set.notMem_empty _))
    (fun _ hid => absurd hid (Set.notMem_empty _)) (size_atom g label) (fun id t ht => ?_)
    (fun _ hid => absurd hid (Set.notMem_empty _)) (leads_of_mem hstep)
    (transitions_atom_size_succ label)
  by_cases heq : id = g.size
  · rw [heq, transitions_atom_size, List.mem_singleton] at ht
    exact .inr (.inr (by rw [ht]))
  · rw [transitions_atom_of_ne label heq] at ht
    exact .inl ht

/-! ## One fragment after the other -/

theorem owns_concat (hl : g.Owns lower A) (hu : g.Owns upper B) (hdisjoint : Disjoint A B) :
    (g.concat lower upper).1.Owns (g.concat lower upper).2 (A ∪ B) := by
  have hkept : ∀ id, ∀ t ∈ g.transitions id, t ∈ (g.concat lower upper).1.transitions id :=
    fun id t ht => mem_transitions_concat.mpr (.inl ht)
  have hbridge : (⟨Token.epsilon, upper.start⟩ : Transition) ∈
      (g.concat lower upper).1.transitions lower.accept :=
    mem_transitions_concat.mpr (.inr ⟨⟨rfl, hl.lt_size _ hl.accept_mem⟩, rfl⟩)
  have hcross := leads_of_mem hbridge
  have hlower := hl.between fun id _ => hkept id
  have hupper := hu.between fun id _ => hkept id
  exact {
    start_mem := .inl hl.start_mem
    accept_mem := .inr hu.accept_mem
    start_ne_accept := hdisjoint.ne_of_mem hl.start_mem hu.accept_mem
    lt_size := by
      intro id hid
      rw [size_concat]
      exact hid.elim (hl.lt_size id) (hu.lt_size id)
    closed := by
      intro id hid t ht
      cases mem_transitions_concat.mp ht with
      | inl hold => exact hid.imp (hl.closed id · t hold) (hu.closed id · t hold)
      | inr hnew => rw [hnew.2]; exact .inr hu.start_mem
    leads_from := by
      intro id hid
      cases hid with
      | inl hid => exact (hlower id hid).1
      | inr hid => exact ((hlower _ hl.accept_mem).1.trans hcross).trans (hupper id hid).1
    leads_to := by
      intro id hid
      cases hid with
      | inl hid => exact ((hlower id hid).2.trans hcross).trans (hupper _ hu.accept_mem).1
      | inr hid => exact (hupper id hid).2
    start_fresh := by
      intro source t ht
      cases mem_transitions_concat.mp ht with
      | inl hold => exact hl.start_fresh source t hold
      | inr hnew =>
        rw [hnew.2]
        exact (hdisjoint.ne_of_mem hl.start_mem hu.start_mem).symm
    accept_final := by
      change (g.concat lower upper).1.transitions upper.accept = []
      rw [transitions_concat_of_ne (hdisjoint.ne_of_mem hl.accept_mem hu.accept_mem).symm]
      exact hu.accept_final }

/-! ## A choice between two fragments -/

theorem owns_union (h : g.Orderly) (hl : g.Owns lower A) (hu : g.Owns upper B) :
    (g.union lower upper).1.Owns (g.union lower upper).2
      (A ∪ B ∪ Set.Ico g.size (g.size + 2)) := by
  have hl' := hl.lt_size _ hl.accept_mem
  have hu' := hu.lt_size _ hu.accept_mem
  have hkept : ∀ id, ∀ t ∈ g.transitions id, t ∈ (g.union lower upper).1.transitions id :=
    fun id t ht => mem_transitions_union.mpr (.inl ht)
  have hlower := hl.through (fun id _ => hkept id)
    (mem_transitions_union.mpr (.inr (.inl ⟨rfl, .inl rfl⟩)))
    (mem_transitions_union.mpr (.inr (.inr ⟨.inl rfl, by omega, rfl⟩)))
  have hupper := hu.through (fun id _ => hkept id)
    (mem_transitions_union.mpr (.inr (.inl ⟨rfl, .inr rfl⟩)))
    (mem_transitions_union.mpr (.inr (.inr ⟨.inr rfl, by omega, rfl⟩)))
  refine owns_around h (fun id hid => ?_) (fun id hid t ht => ?_) (size_union g lower upper)
    (fun id t ht => ?_) (fun id hid => ?_)
    ((hlower _ hl.start_mem).1.trans (hlower _ hl.start_mem).2) ?_
  · exact hid.elim (hl.lt_size id) (hu.lt_size id)
  · exact hid.imp (hl.closed id · t ht) (hu.closed id · t ht)
  · rcases mem_transitions_union.mp ht with hold | ⟨-, rfl | rfl⟩ | ⟨-, -, rfl⟩
    · exact .inl hold
    · exact .inr (.inl (.inl hl.start_mem))
    · exact .inr (.inl (.inr hu.start_mem))
    · exact .inr (.inr rfl)
  · exact hid.elim (hlower id) (hupper id)
  · rw [transitions_union_of_ne (by omega) (by omega) (by omega),
      transitions_of_size_le (by omega)]

/-! ## Any number of passes -/

theorem owns_star (h : g.Orderly) (hi : g.Owns inner A) :
    (g.star inner).1.Owns (g.star inner).2 (A ∪ Set.Ico g.size (g.size + 2)) := by
  have hi' := hi.lt_size _ hi.accept_mem
  have hinner := hi.through (fun id _ t ht => mem_transitions_star.mpr (.inl ht))
    (mem_transitions_star.mpr (.inr ⟨.inl rfl, by omega, .inl rfl⟩))
    (mem_transitions_star.mpr (.inr ⟨.inr rfl, by omega, .inr rfl⟩))
  refine owns_around h hi.lt_size hi.closed (size_star g inner) (fun id t ht => ?_) hinner
    ((hinner _ hi.start_mem).1.trans (hinner _ hi.start_mem).2) ?_
  · rcases mem_transitions_star.mp ht with hold | ⟨-, -, rfl | rfl⟩
    · exact .inl hold
    · exact .inr (.inl hi.start_mem)
    · exact .inr (.inr rfl)
  · rw [transitions_star_of_ne (by omega) (by omega), transitions_of_size_le (by omega)]

/-! ## Copies -/

/-- The copies of states are all new states. -/
theorem mem_Ico_copied (hnodup : order.Nodup) :
    id ∈ Set.Ico g.size (g.copied order).size ↔ ∃ old ∈ order, id = g.renamed order old := by
  constructor
  · intro hid
    rcases g.copied_cases hnodup id with hold | hcopy | hnone
    · exact absurd hold (Nat.not_lt_of_le (Set.mem_Ico.mp hid).1)
    · exact hcopy
    · exact absurd (Set.mem_Ico.mp hid).2 (Nat.not_lt_of_le hnone)
  · rintro ⟨old, hold, rfl⟩
    rw [size_copied]
    exact ⟨Nat.le_add_right _ _, Nat.add_lt_add_left (List.idxOf_lt_length_of_mem hold) _⟩

theorem leads_renamed (hclosed : g.Closed {id | id ∈ order}) (ha : a ∈ order)
    (hleads : Search.Leads g.targets a b) :
    Search.Leads (g.copied order).targets (g.renamed order a) (g.renamed order b) := by
  revert ha
  induction hleads using Relation.ReflTransGen.head_induction_on with
  | refl => exact fun _ => .refl
  | @head a c hstep _ ih =>
    intro ha
    obtain ⟨t, ht, rfl⟩ := List.mem_map.mp hstep
    have hcopy : t.rename (g.renamed order) ∈ (g.copied order).transitions (g.renamed order a) := by
      rw [transitions_copied_renamed ha]
      exact List.mem_map_of_mem ht
    exact (leads_of_mem hcopy).trans (ih (hclosed a ha t ht))

/-- The copy of a fragment owns the copies of its region. -/
theorem owns_copied (h : g.Orderly) (hf : g.Owns f A) :
    (g.copied (g.reachable f.start)).Owns
      ⟨g.size, g.renamed (g.reachable f.start) f.accept⟩
      (Set.Ico g.size (g.copied (g.reachable f.start)).size) := by
  have hnodup := nodup_reachable g f.start
  have hclosed := closed_reachable g f.start
  have hstart : f.start ∈ g.reachable f.start := root_mem_reachable
  have haccept : f.accept ∈ g.reachable f.start := hf.mem_iff.mpr hf.accept_mem
  have hsize : g.size = g.renamed (g.reachable f.start) f.start := by
    rw [renamed, idxOf_root, Nat.add_zero]
  rw [show (⟨g.size, g.renamed (g.reachable f.start) f.accept⟩ : Fragment) =
    ⟨g.renamed (g.reachable f.start) f.start, g.renamed (g.reachable f.start) f.accept⟩ by
      rw [← hsize]]
  exact {
    start_mem := (mem_Ico_copied hnodup).mpr ⟨_, hstart, rfl⟩
    accept_mem := (mem_Ico_copied hnodup).mpr ⟨_, haccept, rfl⟩
    start_ne_accept := fun heq => hf.start_ne_accept ((renamed_inj hstart).mp heq)
    lt_size := fun id hid => (Set.mem_Ico.mp hid).2
    closed := by
      intro id hid t ht
      obtain ⟨old, hold, rfl⟩ := (mem_Ico_copied hnodup).mp hid
      rw [transitions_copied_renamed hold] at ht
      obtain ⟨u, hu, rfl⟩ := List.mem_map.mp ht
      exact (mem_Ico_copied hnodup).mpr ⟨u.target, hclosed old hold u hu, rfl⟩
    leads_from := by
      intro id hid
      obtain ⟨old, hold, rfl⟩ := (mem_Ico_copied hnodup).mp hid
      exact leads_renamed hclosed hstart (mem_reachable_iff.mp hold)
    leads_to := by
      intro id hid
      obtain ⟨old, hold, rfl⟩ := (mem_Ico_copied hnodup).mp hid
      exact leads_renamed hclosed hold (hf.leads_to old (hf.mem_iff.mp hold))
    start_fresh := by
      intro source t ht
      rcases g.copied_cases hnodup source with hold | ⟨old, hold, rfl⟩ | hnone
      · rw [transitions_copied_of_lt hold] at ht
        exact Nat.ne_of_lt (Nat.lt_add_right _ (h.target_lt source t ht))
      · rw [transitions_copied_renamed hold] at ht
        obtain ⟨u, hu, rfl⟩ := List.mem_map.mp ht
        intro heq
        exact hf.start_fresh old u hu ((renamed_inj (hclosed old hold u hu)).mp heq)
      · rw [transitions_of_size_le hnone] at ht
        cases ht
    accept_final := by
      rw [transitions_copied_renamed haccept, hf.accept_final, List.map_nil] }

end PatternAutomata.Graph
