import PatternAutomata.Proofs.Graph.Copy

/-!
# What the operations make

An operation uses up the regions of its operands and makes one part out of them
and of new states.  It changes the steps of no other state.  `Graph.Makes` says
this of the outcome of an operation, whatever the operation is.

So a part that shares no state with the operands is a part of the outcome too
(`Makes.frame`), and it shares no state with what was made (`Makes.region`).  Two
operations in a row use up what the first one used (`Makes.trans`).  The second
may use what the first one made, since that is old or new.
-/

namespace PatternAutomata.Graph

/-- The outcome of an operation that uses up the states of `old` and makes a part
that reads a language. -/
structure Makes (g : Graph) (made : Graph × Fragment) (old : Set Nat) (language : Language String) :
    Prop where
  /-- What is made consists of used and new states. -/
  region : ∃ region, Part made.1 made.2 region language ∧ ∀ id ∈ region, id ∈ old ∨ g.size ≤ id
  /-- The graph grows. -/
  size_le : g.size ≤ made.1.size
  /-- All other states keep their steps. -/
  transitions_eq : ∀ id < g.size, id ∉ old → made.1.transitions id = g.transitions id

namespace Makes

variable {g : Graph} {made next : Graph × Fragment} {f : Fragment} {old region : Set Nat}
variable {L M : Language String}

/-- A part without used states is a part of the outcome. -/
theorem frame (h : Makes g made old M) (hpart : Part g f region L)
    (hdisjoint : Disjoint region old) : Part made.1 f region L :=
  hpart.frame h.size_le fun id hid =>
    h.transitions_eq id (hpart.lt_size id hid) (Set.disjoint_left.mp hdisjoint hid)

/-- Behind an operation that only adds states comes another one, which may use the
new states. -/
theorem trans {used : Set Nat} (hsize : g.size ≤ made.1.size)
    (hagree : ∀ id < g.size, made.1.transitions id = g.transitions id)
    (h : Makes made.1 next used L) (hused : ∀ id ∈ used, id ∈ old ∨ g.size ≤ id) :
    Makes g next old L where
  region := by
    obtain ⟨region, hpart, hregion⟩ := h.region
    refine ⟨region, hpart, fun id hid => ?_⟩
    rcases hregion id hid with hid | hid
    · exact hused id hid
    · exact .inr (Nat.le_trans hsize hid)
  size_le := Nat.le_trans hsize h.size_le
  transitions_eq id hid hnew := by
    rw [h.transitions_eq id (Nat.lt_of_lt_of_le hid hsize), hagree id hid]
    intro hmem
    rcases hused id hmem with hold | hle
    · exact hnew hold
    · exact absurd hle (Nat.not_le_of_lt hid)

end Makes

/-! ## The operations -/

variable {g : Graph} {lower upper inner : Fragment} {A B : Set Nat} {L M : Language String}

theorem makes_atom (g : Graph) (label : Token) :
    Makes g (g.atom label) ∅ {(⟨label, g.size + 1⟩ : Transition).word} where
  region := ⟨_, part_atom g label, fun _ hid => .inr (le_of_mem_pair hid)⟩
  size_le := by
    rw [size_atom]
    exact Nat.le_add_right _ 2
  transitions_eq _ hid _ := transitions_atom_of_ne label (Nat.ne_of_lt hid)

theorem makes_concat (hl : Part g lower A L) (hu : Part g upper B M) (hdisjoint : Disjoint A B) :
    Makes g (g.concat lower upper) (A ∪ B) (L * M) where
  region := ⟨_, part_concat hl hu hdisjoint, fun _ hid => .inl hid⟩
  size_le := Nat.le_of_eq (size_concat g lower upper).symm
  transitions_eq id _ hnew := by
    refine transitions_concat_of_ne ?_
    rintro rfl
    exact hnew (.inl hl.accept_mem)

theorem makes_union (hl : Part g lower A L) (hu : Part g upper B M) (hdisjoint : Disjoint A B) :
    Makes g (g.union lower upper) (A ∪ B) (L + M) where
  region := ⟨_, part_union hl hu hdisjoint, fun _ hid => hid.symm.imp_right le_of_mem_pair⟩
  size_le := by
    rw [size_union]
    exact Nat.le_add_right _ 2
  transitions_eq id hid hnew := by
    refine transitions_union_of_ne (Nat.ne_of_lt hid) ?_ ?_
    · rintro rfl
      exact hnew (.inl hl.accept_mem)
    · rintro rfl
      exact hnew (.inr hu.accept_mem)

theorem makes_star (h : Part g inner A L) : Makes g (g.star inner) A (KStar.kstar L) where
  region := ⟨_, part_star h, fun _ hid => hid.symm.imp_right le_of_mem_pair⟩
  size_le := by
    rw [size_star]
    exact Nat.le_add_right _ 2
  transitions_eq id hid hnew := by
    refine transitions_star_of_ne (Nat.ne_of_lt hid) ?_
    rintro rfl
    exact hnew h.accept_mem

/-- At most one pass is a choice between the operand and a part that reads the
empty word only. -/
theorem makes_question (h : Part g inner A L) : Makes g (g.question inner) A (L + 1) := by
  have hblank : Makes g g.blank ∅ 1 := makes_atom g Token.epsilon
  have hinner : Part g.blank.1 inner A L := hblank.frame h (Set.disjoint_empty A)
  have hdisjoint : Disjoint A {g.size, g.size + 1} := by
    refine Set.disjoint_left.mpr fun id hid hnew => ?_
    exact absurd (le_of_mem_pair hnew) (Nat.not_le_of_lt (h.lt_size id hid))
  have hunion := makes_union hinner (part_blank g) hdisjoint
  refine hunion.trans hblank.size_le (fun id hid => ?_) fun _ hid => hid.imp_right le_of_mem_pair
  exact hblank.transitions_eq id hid (Set.notMem_empty id)

/-- A part that reads a word can be passed at least once.  The later passes go
through its copy. -/
theorem makes_plus {w : List String} (h : Part g inner A L) (hw : w ∈ L) :
    ∃ made, g.plus inner = some made ∧ Makes g made A (L * KStar.kstar L) := by
  have hsecond := part_copied h hw
  have hcopy : ∀ id ∈ g.renamed (g.reachable inner.start) '' {id | id ∈ g.reachable inner.start},
      g.size ≤ id := by
    rintro _ ⟨id, -, rfl⟩
    exact Nat.le_add_right _ _
  have hdisjoint : ∀ {R : Set Nat}, (∀ id ∈ R, g.size ≤ id) → Disjoint A R := by
    intro R hR
    refine Set.disjoint_left.mpr fun id hid hnew => ?_
    exact absurd (hR id hnew) (Nat.not_le_of_lt (h.lt_size id hid))
  have hsize : g.size ≤ (g.copied (g.reachable inner.start)).size := by
    rw [size_copied]
    exact Nat.le_add_right _ _
  have hinner : Part (g.copied (g.reachable inner.start)) inner A L :=
    h.frame hsize fun id hid => transitions_copied_of_lt (h.lt_size id hid) _
  have hstar := makes_star hsecond
  obtain ⟨R, hrepeated, hR⟩ := hstar.region
  have hnew : ∀ id ∈ R, g.size ≤ id :=
    fun id hid => (hR id hid).elim (hcopy id) (Nat.le_trans hsize)
  -- Neither the copy nor the star touches the operand, so it is still the part it was.
  have hconcat := makes_concat (hstar.frame hinner (hdisjoint hcopy)) hrepeated (hdisjoint hnew)
  refine ⟨_, ?_, hconcat.trans (Nat.le_trans hsize hstar.size_le) ?_ ?_⟩
  · rw [plus, copy_eq (accept_mem_reachable h hw)]
    rfl
  · intro id hid
    rw [hstar.transitions_eq id (Nat.lt_of_lt_of_le hid hsize), transitions_copied_of_lt hid]
    exact fun hmem => absurd (hcopy id hmem) (Nat.not_le_of_lt hid)
  · exact fun id hid => hid.imp_right (hnew id)

end PatternAutomata.Graph
