import PatternAutomata.Proofs.Graph.Embeds

/-!
# A copy and a second making

A fragment can be had twice in two ways.  One is to copy it, and the other is to make
it again.  A copy has its states in the order of a search, and what is made again has
them in the order of their making.  `unranked` takes the one order to the other, so
the graph with the copy stands inside the graph that was made again, and the other
way round (`Graph.embeds_unranked`).
-/

namespace PatternAutomata

/-! ## From one order to the other -/

section Unranked

variable {n i j : Nat} {order : List Nat}

/-- Behind the first `n` indices, the element of every index of a list instead of the
index. -/
def unranked (n : Nat) (order : List Nat) (id : Nat) : Nat :=
  if id < n then id else n + order.getD (id - n) (id - n)

theorem unranked_of_lt (h : i < n) (order : List Nat) : unranked n order i = i := if_pos h

theorem unranked_idxOf (h : j ∈ order) : unranked n order (n + order.idxOf j) = n + j := by
  rw [unranked, if_neg (by omega), Nat.add_sub_cancel_left, List.getD_eq_getElem?_getD,
    List.getElem?_idxOf h, Option.getD_some]

theorem unranked_of_le (h : n + order.length ≤ i) : unranked n order i = i := by
  rw [unranked, if_neg (by omega), List.getD_eq_getElem?_getD, List.getElem?_eq_none (by omega),
    Option.getD_none]
  omega

/-- An index is one of the first, that of an element, or one of the last. -/
theorem unranked_cases (hnodup : order.Nodup) (n i : Nat) :
    i < n ∨ (∃ j ∈ order, i = n + order.idxOf j) ∨ n + order.length ≤ i := by
  rcases Nat.lt_or_ge i n with hfirst | hge
  · exact .inl hfirst
  · rcases Nat.lt_or_ge (i - n) order.length with hlt | hle
    · refine .inr (.inl ⟨order[i - n], List.getElem_mem hlt, ?_⟩)
      rw [hnodup.idxOf_getElem]
      omega
    · exact .inr (.inr (by omega))

variable (hperm : order.Perm (List.range order.length))

include hperm

theorem lt_length_of_mem (h : j ∈ order) : j < order.length :=
  List.mem_range.mp (hperm.mem_iff.mp h)

theorem unranked_injective (n : Nat) : (unranked n order).Injective := by
  have hnodup : order.Nodup := hperm.nodup_iff.mpr List.nodup_range
  -- The three sorts of indices go to three sorts of indices.
  have hsort : ∀ i, (i < n ∧ unranked n order i = i) ∨
      (∃ j ∈ order, j < order.length ∧ i = n + order.idxOf j ∧ unranked n order i = n + j) ∨
      n + order.length ≤ i ∧ unranked n order i = i := by
    intro i
    rcases unranked_cases hnodup n i with hfirst | ⟨j, hj, rfl⟩ | hlast
    · exact .inl ⟨hfirst, unranked_of_lt hfirst order⟩
    · exact .inr (.inl ⟨j, hj, lt_length_of_mem hperm hj, rfl, unranked_idxOf hj⟩)
    · exact .inr (.inr ⟨hlast, unranked_of_le hlast⟩)
  intro i i' heq
  rcases hsort i with ⟨hi, hu⟩ | ⟨j, -, hj, hi, hu⟩ | ⟨hi, hu⟩ <;>
    rcases hsort i' with ⟨hi', hu'⟩ | ⟨j', -, hj', hi', hu'⟩ | ⟨hi', hu'⟩ <;>
    rw [hu, hu'] at heq
  case inr.inl.inr.inl =>
    obtain rfl : j = j' := Nat.add_left_cancel heq
    rw [hi, hi']
  all_goals omega

theorem unranked_lt (h : i < n + order.length) : unranked n order i < n + order.length := by
  rcases unranked_cases (hperm.nodup_iff.mpr List.nodup_range) n i with hfirst | ⟨j, hj, rfl⟩ | hlast
  · rw [unranked_of_lt hfirst]
    exact h
  · rw [unranked_idxOf hj]
    exact Nat.add_lt_add_left (lt_length_of_mem hperm hj) n
  · exact absurd h (Nat.not_lt_of_le hlast)

end Unranked

/-! ## The two graphs -/

namespace Graph

variable {base g once twice : Graph} {root : Nat}

/-- A graph is put behind `base`, which gives `once`.  If it is put there again, this is
a copy of all that its root leads to, up to the order of the new states. -/
theorem embeds_unranked (hperm : (g.reachable root).Perm (List.range g.size))
    (honce : Embeds base (base.size + ·) id g once)
    (htarget : ∀ id, ∀ t ∈ once.transitions id, t.target < once.size)
    (htwice : Embeds once (once.size + ·) id g twice) :
    Embeds empty (unranked once.size (g.reachable root)) id
      (once.copied (once.reachable (base.size + root))) twice := by
  have hlength : (g.reachable root).length = g.size := by
    rw [hperm.length_eq, List.length_range]
  have hsize : twice.size = once.size + (g.reachable root).length := by
    rw [hlength]
    exact htwice.names_size.symm
  have hnodup := nodup_reachable g root
  have hclosed := closed_reachable g root
  have horder := honce.reachable_eq root
  generalize g.reachable root = order at *
  have hrange : order.Perm (List.range order.length) := by rwa [hlength]
  have hcopied : (once.copied (order.map (base.size + ·))).size = twice.size := by
    rw [size_copied, List.length_map, hsize]
  -- The copy of a state, and the name it had before.
  have hrenamed : ∀ id, once.renamed (order.map (base.size + ·)) (base.size + id) =
      once.size + order.idxOf id := by
    intro id
    rw [renamed, idxOf_map_of_injective honce.injective]
  rw [horder]
  refine ⟨unranked_injective hrange once.size, fun id hid => ?_, fun i => ?_, fun id => ?_,
    fun _ => Nat.zero_le _, fun id hid => absurd hid (Nat.not_lt_zero id)⟩
  · rw [hcopied, hsize] at hid
    rw [hsize]
    exact unranked_lt hrange hid
  · rw [hcopied, hsize]
    exact unranked_of_le (Nat.le_add_right _ i)
  · rw [Transition.move_id]
    rcases unranked_cases hnodup once.size id with hold | ⟨old, hmem, rfl⟩ | hnone
    · rw [unranked_of_lt hold, htwice.kept id hold, transitions_copied_of_lt hold]
      refine ((List.map_congr_left fun t ht => ?_).trans (List.map_id _)).symm
      exact congrArg (Transition.mk t.label) (unranked_of_lt (htarget id t ht) order)
    · rw [unranked_idxOf hmem, htwice.transitions_eq, ← hrenamed old,
        transitions_copied_renamed (List.mem_map_of_mem hmem), honce.transitions_eq, List.map_map,
        List.map_map]
      refine List.map_congr_left fun t ht => ?_
      have htarget' : t.target ∈ order := hclosed old hmem t ht
      simp only [Function.comp_apply, Transition.move_id, Transition.rename, hrenamed,
        unranked_idxOf htarget']
    · rw [unranked_of_le hnone, transitions_of_size_le (by rw [hsize]; exact hnone),
        transitions_of_size_le (by rw [hcopied, hsize]; exact hnone), List.map_nil]

end Graph

end PatternAutomata
