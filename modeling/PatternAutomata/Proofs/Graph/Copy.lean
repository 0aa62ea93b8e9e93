import Mathlib.Data.List.Nodup
import PatternAutomata.Graph.Fragment
import PatternAutomata.Proofs.Graph.Part

/-!
# Copies

A copy of a fragment takes all states that its start leads to, in the order in
which a search finds them, and puts a new state for each of them at the end of the
graph.  `Graph.copied` is the larger graph and `Graph.renamed` the name of the new
state.  The old states keep their steps.  A new state has the steps of the old one
under their new names, since what the start leads to is closed under steps.

So a walk from the start has a copy, and every walk from the new start is the copy
of one (`walk_renamed_iff`).  The copy of a part is a part that reads the same
language (`part_copy`).  A part that reads a word at all leads to its accept, so
there is always a copy of it (`copy_eq`).
-/

namespace PatternAutomata

/-- A step with another target. -/
def Transition.rename (names : Nat → Nat) (t : Transition) : Transition :=
  ⟨t.label, names t.target⟩

/-- A new target does not change what a step reads. -/
theorem Transition.word_rename (names : Nat → Nat) (t : Transition) :
    (t.rename names).word = t.word := rfl

namespace Graph

variable {g : Graph} {f : Fragment} {root id : Nat} {order : List Nat}

/-! ## What a fragment leads to -/

theorem targets_of_size_le (h : g.size ≤ id) : g.targets id = [] := by
  rw [targets, transitions_of_size_le h, List.map_nil]

theorem mem_reachable_iff : id ∈ g.reachable root ↔ Search.Leads g.targets root id := by
  rw [reachable, Search.mem_reach_iff fun v hv => targets_of_size_le hv]
  simp

theorem root_mem_reachable : root ∈ g.reachable root := mem_reachable_iff.mpr .refl

theorem closed_reachable (g : Graph) (root : Nat) : g.Closed {id | id ∈ g.reachable root} := by
  intro id hid t ht
  rw [Set.mem_ofPred_eq, mem_reachable_iff] at hid ⊢
  exact hid.tail (List.mem_map_of_mem ht)

theorem nodup_reachable (g : Graph) (root : Nat) : (g.reachable root).Nodup :=
  Search.nodup_reach _ _ _

theorem idxOf_root (g : Graph) (root : Nat) : (g.reachable root).idxOf root = 0 := by
  obtain ⟨rest, hrest⟩ := Search.reach_eq_cons g.targets g.size root
  rw [reachable, hrest, List.idxOf_cons_self]

/-! ## New names -/

/-- The name of the copy of a state. -/
def renamed (g : Graph) (order : List Nat) (id : Nat) : Nat := g.size + order.idxOf id

theorem renamed_inj {id' : Nat} (hid : id ∈ order) :
    g.renamed order id = g.renamed order id' ↔ id = id' := by
  rw [renamed, renamed, Nat.add_left_cancel_iff, List.idxOf_inj hid]

/-- Every state of the order is found under its rank. -/
theorem getElem?_ranks (hnodup : order.Nodup) (hid : id ∈ order) :
    (ranks order)[id]? = some (order.idxOf id) := by
  have hmem : (id, order.idxOf id) ∈ order.zipIdx :=
    List.mk_mem_zipIdx_iff_getElem?.mpr (List.getElem?_idxOf hid)
  have hdistinct : order.zipIdx.Pairwise fun a b => ¬compare a.1 b.1 = .eq := by
    have hfst : (order.zipIdx.map Prod.fst).Pairwise (· ≠ ·) := by
      rw [List.zipIdx_map_fst]
      exact hnodup
    refine (List.pairwise_map.mp hfst).imp fun hne heq => hne ?_
    exact Std.LawfulEqCmp.compare_eq_iff_eq.mp heq
  exact Std.TreeMap.getElem?_ofList_of_mem Std.ReflCmp.compare_self hdistinct hmem

/-- Nothing else is found. -/
theorem getElem?_ranks_of_notMem (hid : id ∉ order) : (ranks order)[id]? = none := by
  refine Std.TreeMap.getElem?_ofList_of_contains_eq_false ?_
  rw [List.zipIdx_map_fst]
  simpa using hid

/-! ## The larger graph -/

/-- The copies of the states of the order, in that order. -/
def copies (g : Graph) (order : List Nat) : List State :=
  order.zipIdx.map fun (id, i) =>
    ⟨g.size + i, (g.transitions id).map (.rename (g.renamed order))⟩

/-- The graph with a copy of all states of the order. -/
def copied (g : Graph) (order : List Nat) : Graph := ⟨g.states ++ g.copies order⟩

/-- Through its two views, the larger graph is a list of states. -/
theorem states_copied (g : Graph) (order : List Nat) :
    (g.copied order).states.toList = g.states.toList ++ g.copies order :=
  Array.toList_appendList

@[simp] theorem size_copied (g : Graph) (order : List Nat) :
    (g.copied order).size = g.size + order.length := by
  rw [size, ← Array.length_toList, states_copied]
  simp [copies, size]

theorem transitions_copied_of_lt (h : id < g.size) (order : List Nat) :
    (g.copied order).transitions id = g.transitions id := by
  have hlt : id < g.states.toList.length := h
  simp only [transitions, ← Array.getElem?_toList, states_copied, List.getElem?_append_left hlt]

theorem transitions_copied_renamed (hid : id ∈ order) :
    (g.copied order).transitions (g.renamed order id) =
      (g.transitions id).map (.rename (g.renamed order)) := by
  have hget : (g.copied order).states[g.renamed order id]? = some
      ⟨g.renamed order id, (g.transitions id).map (.rename (g.renamed order))⟩ := by
    have hle : g.states.toList.length ≤ g.renamed order id := Nat.le_add_right _ _
    rw [← Array.getElem?_toList, states_copied, List.getElem?_append_right hle]
    simp [renamed, size, copies, List.getElem?_idxOf hid]
  rw [transitions, hget]
  rfl

/-- There is a copy of a fragment that leads to its accept. -/
theorem copy_eq (haccept : f.accept ∈ g.reachable f.start) :
    g.copy f = some (g.copied (g.reachable f.start),
      ⟨g.size, g.renamed (g.reachable f.start) f.accept⟩) := by
  have hrank : ∀ id ∈ g.reachable f.start, (ranks (g.reachable f.start))[id]?.map (g.size + ·) =
      some (g.renamed (g.reachable f.start) id) := by
    intro id hid
    rw [getElem?_ranks (nodup_reachable g f.start) hid]
    rfl
  -- No step is lost, since its target is found as well.
  have hcopied : ∀ id ∈ g.reachable f.start, (g.transitions id).filterMap (fun t =>
      ((ranks (g.reachable f.start))[t.target]?.map (g.size + ·)).map (Transition.mk t.label)) =
        (g.transitions id).map (Transition.rename (g.renamed (g.reachable f.start))) := by
    intro id hid
    rw [← List.filterMap_eq_map]
    refine List.filterMap_congr fun t ht => ?_
    rw [hrank _ (closed_reachable g f.start id hid t ht)]
    rfl
  have hstates : (g.reachable f.start).zipIdx.map (fun (id, i) =>
      State.mk (g.size + i) ((g.transitions id).filterMap (fun t =>
        ((ranks (g.reachable f.start))[t.target]?.map (g.size + ·)).map (Transition.mk t.label)))) =
          g.copies (g.reachable f.start) := by
    refine List.map_congr_left fun (id, i) hid => ?_
    simp only [hcopied id (List.fst_mem_of_mem_zipIdx hid)]
  simp only [copy, hrank _ haccept, hstates, Option.map_some]
  rfl

/-- There is no copy of a fragment that does not lead to its accept. -/
theorem copy_eq_none (haccept : f.accept ∉ g.reachable f.start) : g.copy f = none := by
  simp only [copy, getElem?_ranks_of_notMem haccept, Option.map_none]

end Graph

/-! ## Walks through a copy -/

section Copied

variable {g : Graph} {f : Fragment} {order : List Nat} {a b : Nat} {w : List String}

/-- Every walk from a copied state has a copy. -/
theorem Walk.renamed (hclosed : g.Closed {id | id ∈ order}) (ha : a ∈ order) (walk : Walk g a w b) :
    Walk (g.copied order) (g.renamed order a) w (g.renamed order b) := by
  revert ha
  induction walk using stepwise with
  | here => exact fun _ => .here _
  | @step id t word mem _ ih =>
    intro hid
    have mem' : t.rename (g.renamed order) ∈ (g.copied order).transitions (g.renamed order id) := by
      rw [Graph.transitions_copied_renamed hid]
      exact List.mem_map_of_mem mem
    rw [← t.word_rename (g.renamed order)]
    exact Walk.step mem' (ih (hclosed id hid t mem))

/-- Every walk from a new state is the copy of a walk. -/
theorem Walk.exists_of_renamed (hclosed : g.Closed {id | id ∈ order}) {last : Nat}
    (ha : a ∈ order) (walk : Walk (g.copied order) (g.renamed order a) w last) :
    ∃ b ∈ order, last = g.renamed order b ∧ Walk g a w b := by
  generalize hsource : g.renamed order a = source at walk
  induction walk using stepwise generalizing a with
  | here => exact ⟨a, ha, hsource.symm, .here a⟩
  | @step id t word mem _ ih =>
    rw [← hsource, Graph.transitions_copied_renamed ha] at mem
    obtain ⟨u, hu, rfl⟩ := List.mem_map.mp mem
    obtain ⟨b, hb, hlast, rest⟩ := ih (hclosed a ha u hu) rfl
    rw [u.word_rename]
    exact ⟨b, hb, hlast, Walk.step hu rest⟩

theorem walk_renamed_iff (hclosed : g.Closed {id | id ∈ order}) (ha : a ∈ order) (hb : b ∈ order) :
    Walk (g.copied order) (g.renamed order a) w (g.renamed order b) ↔ Walk g a w b := by
  refine ⟨fun walk => ?_, Walk.renamed hclosed ha⟩
  obtain ⟨b', -, hlast, walk⟩ := walk.exists_of_renamed hclosed ha
  rwa [(Graph.renamed_inj hb).mp hlast]

namespace Graph

/-- The new states are a region of the larger graph. -/
theorem closed_renamed (hclosed : g.Closed {id | id ∈ order}) :
    (g.copied order).Closed (g.renamed order '' {id | id ∈ order}) := by
  rintro _ ⟨id, hid, rfl⟩ t ht
  rw [transitions_copied_renamed hid] at ht
  obtain ⟨u, hu, rfl⟩ := List.mem_map.mp ht
  exact ⟨u.target, hclosed id hid u hu, rfl⟩

/-- A part that reads a word has its accept among what its start leads to. -/
theorem accept_mem_reachable {A : Set Nat} {L : Language String} (h : Part g f A L) (hw : w ∈ L) :
    f.accept ∈ g.reachable f.start :=
  mem_reachable_iff.mpr (h.mem_iff.mp hw).leads

/-- The copy of a part reads what the part reads. -/
theorem part_copied {A : Set Nat} {L : Language String} (h : Part g f A L) (hw : w ∈ L) :
    Part (g.copied (g.reachable f.start)) ⟨g.size, g.renamed (g.reachable f.start) f.accept⟩
      (g.renamed (g.reachable f.start) '' {id | id ∈ g.reachable f.start}) L := by
  have haccept := accept_mem_reachable h hw
  have hstart : g.size = g.renamed (g.reachable f.start) f.start := by
    rw [renamed, idxOf_root, Nat.add_zero]
  rw [hstart]
  exact {
    start_mem := ⟨f.start, root_mem_reachable, rfl⟩
    accept_mem := ⟨f.accept, haccept, rfl⟩
    lt_size := by
      rintro _ ⟨id, hid, rfl⟩
      rw [size_copied, renamed]
      exact Nat.add_lt_add_left (List.idxOf_lt_length_of_mem hid) _
    closed := closed_renamed (closed_reachable g f.start)
    words_eq := by
      rw [← h.words_eq]
      ext v
      exact walk_renamed_iff (closed_reachable g f.start) root_mem_reachable haccept }

end Graph

end Copied

end PatternAutomata
