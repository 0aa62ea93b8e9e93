import Mathlib.Order.Interval.Set.LinearOrder
import PatternAutomata.Proofs.Graph.Owns

/-!
# What the operations assemble

An operation uses up the regions of its operands and assembles a fragment that owns
them and all new states.  It keeps the graph orderly and touches the steps of no
other state (`Graph.Assembles`).

Silent steps come in two shapes.  At a fork one state gets steps to two states, and
at a meeting two states get a step to the same one.  A choice is a fork and a
meeting, and any number of passes are two forks.

So a fragment that shares no state with the operands still owns its region
(`Assembles.frame`), and operations in a row assemble one fragment from all that
they use (`Assembles.trans`).  There is one lemma for each operation.
-/

namespace PatternAutomata.Graph

variable {g : Graph} {made next : Graph × Fragment} {f lower upper inner : Fragment}
variable {A B old other used region : Set Nat} {source target first second id : Nat} {label : Token}

/-! ## Silent steps -/

theorem lt_size_skip (h : id < g.size) (source target : Nat) : id < (g.skip source target).size := by
  rwa [size_skip]

theorem transitions_skip_self (h : source < g.size) (target : Nat) :
    (g.skip source target).transitions source =
      g.transitions source ++ [⟨Token.epsilon, target⟩] := by
  rw [skip, transitions_link, if_pos ⟨rfl, h⟩]

theorem entries_skip_of_ne (h : source < g.size) (hne : target ≠ id) :
    (g.skip source target).entries id = g.entries id := by
  rw [skip, entries_link h, if_neg hne, Nat.add_zero]

theorem entries_skip_le (h : source < g.size) (target id : Nat) :
    (g.skip source target).entries id ≤ g.entries id + 1 := by
  rw [skip, entries_link h]
  split <;> omega

/-- A fork leads into no state twice. -/
theorem entries_fork_le (h : source < g.size) (hne : first ≠ second) (id : Nat) :
    ((g.skip source first).skip source second).entries id ≤ g.entries id + 1 := by
  by_cases heq : first = id
  · rw [entries_skip_of_ne (lt_size_skip h _ _) (heq ▸ hne.symm)]
    exact entries_skip_le h first id
  · rw [← entries_skip_of_ne h heq]
    exact entries_skip_le (lt_size_skip h _ _) second id

namespace Orderly

/-- A silent step may be added if its source has no step yet, or a silent one to
another state. -/
theorem skip (h : g.Orderly) (hsource : source < g.size) (htarget : target < g.size)
    (hout : g.transitions source = [] ∨
      ∃ first, g.transitions source = [⟨Token.epsilon, first⟩] ∧ first ≠ target)
    (hentry : g.entries target ≤ 1) : (g.skip source target).Orderly := by
  refine h.link hsource htarget ?_ hentry
  cases hout with
  | inl hnone =>
    rw [hnone]
    exact slim_silent target
  | inr hone =>
    obtain ⟨first, hone, hne⟩ := hone
    rw [hone]
    exact slim_fork hne

theorem fork (h : g.Orderly) (hsource : source < g.size) (hfirst : first < g.size)
    (hsecond : second < g.size) (hne : first ≠ second) (hnone : g.transitions source = [])
    (hentry : g.entries first ≤ 1) (hentry' : g.entries second ≤ 1) :
    ((g.skip source first).skip source second).Orderly := by
  refine (h.skip hsource hfirst (.inl hnone) hentry).skip (lt_size_skip hsource _ _)
    (lt_size_skip hsecond _ _) (.inr ⟨first, ?_, hne⟩) ?_
  · rw [transitions_skip_self hsource, hnone, List.nil_append]
  · rwa [entries_skip_of_ne hsource hne]

theorem meeting (h : g.Orderly) (hfirst : first < g.size) (hsecond : second < g.size)
    (htarget : target < g.size) (hne : first ≠ second) (hnone : g.transitions first = [])
    (hnone' : g.transitions second = []) (hentry : g.entries target = 0) :
    ((g.skip first target).skip second target).Orderly := by
  refine (h.skip hfirst htarget (.inl hnone) (by omega)).skip (lt_size_skip hsecond _ _)
    (lt_size_skip htarget _ _) (.inl ?_) ?_
  · rwa [transitions_skip_of_ne hne.symm]
  · have := entries_skip_le hfirst target target
    omega

/-! ## Operations keep a graph orderly -/

theorem atom (h : g.Orderly) (hlabel : label.kind.isOperand = true ∨ label = Token.epsilon) :
    (g.atom label).1.Orderly := by
  have hsize : g.grow.grow.size = g.size + 2 := by simp
  have hnone : g.grow.grow.transitions g.size = [] := by simp [transitions_of_size_le]
  have hentry : g.grow.grow.entries (g.size + 1) = 0 := by simp [h.entries_eq_zero]
  change (g.grow.grow.link g.size label (g.size + 1)).Orderly
  refine h.grow.grow.link (by omega) (by omega) ?_ (by omega)
  rw [hnone]
  cases hlabel with
  | inl hoperand => exact .inl ⟨_, rfl, hoperand⟩
  | inr hsilent =>
    rw [hsilent]
    exact slim_silent _

theorem concat (h : g.Orderly) (hl : g.Owns lower A) (hu : g.Owns upper B) :
    (g.concat lower upper).1.Orderly := by
  have hentry := hu.entries_start
  exact h.skip (hl.lt_size _ hl.accept_mem) (hu.lt_size _ hu.start_mem) (.inl hl.accept_final)
    (by omega)

theorem union (h : g.Orderly) (hl : g.Owns lower A) (hu : g.Owns upper B)
    (hdisjoint : Disjoint A B) : (g.union lower upper).1.Orderly := by
  have hls := hl.lt_size _ hl.start_mem
  have hla := hl.lt_size _ hl.accept_mem
  have hus := hu.lt_size _ hu.start_mem
  have hua := hu.lt_size _ hu.accept_mem
  have hsize : g.grow.grow.size = g.size + 2 := by simp
  have hstarts : lower.start ≠ upper.start := hdisjoint.ne_of_mem hl.start_mem hu.start_mem
  have haccepts : lower.accept ≠ upper.accept := hdisjoint.ne_of_mem hl.accept_mem hu.accept_mem
  have hfork : ((g.grow.grow.skip g.size lower.start).skip g.size upper.start).Orderly :=
    h.grow.grow.fork (by omega) (by omega) (by omega) hstarts (by simp [transitions_of_size_le])
      (by simp [hl.entries_start]) (by simp [hu.entries_start])
  refine hfork.meeting ?_ ?_ ?_ haccepts ?_ ?_ ?_
  · exact lt_size_skip (lt_size_skip (by omega) _ _) _ _
  · exact lt_size_skip (lt_size_skip (by omega) _ _) _ _
  · exact lt_size_skip (lt_size_skip (by simp [nextPair]) _ _) _ _
  · simp [transitions_skip_of_ne, Nat.ne_of_lt hla, hl.accept_final]
  · simp [transitions_skip_of_ne, Nat.ne_of_lt hua, hu.accept_final]
  · change ((g.grow.grow.skip g.size lower.start).skip g.size upper.start).entries (g.size + 1) = 0
    rw [entries_skip_of_ne (lt_size_skip (by omega) _ _) (by omega),
      entries_skip_of_ne (by omega) (by omega), entries_grow, entries_grow,
      h.entries_eq_zero (by omega)]

theorem star (h : g.Orderly) (hi : g.Owns inner A) : (g.star inner).1.Orderly := by
  have his := hi.lt_size _ hi.start_mem
  have hia := hi.lt_size _ hi.accept_mem
  have hsize : g.grow.grow.size = g.size + 2 := by simp
  have hne : inner.start ≠ g.size + 1 := by omega
  have hstart : g.grow.grow.entries inner.start = 0 := by simp [hi.entries_start]
  have haccept : g.grow.grow.entries (g.size + 1) = 0 := by simp [h.entries_eq_zero]
  have hfork : ((g.grow.grow.skip g.size inner.start).skip g.size (g.size + 1)).Orderly :=
    h.grow.grow.fork (by omega) (by omega) (by omega) hne (by simp [transitions_of_size_le])
      (by omega) (by omega)
  have hentries := entries_fork_le (show g.size < g.grow.grow.size by omega) hne
  change ((((g.grow.grow.skip g.size inner.start).skip g.size (g.size + 1)).skip
    inner.accept inner.start).skip inner.accept (g.size + 1)).Orderly
  refine hfork.fork ?_ ?_ ?_ hne ?_ ?_ ?_
  · exact lt_size_skip (lt_size_skip (by omega) _ _) _ _
  · exact lt_size_skip (lt_size_skip (by omega) _ _) _ _
  · exact lt_size_skip (lt_size_skip (by omega) _ _) _ _
  · simp [transitions_skip_of_ne, Nat.ne_of_lt hia, hi.accept_final]
  · have := hentries inner.start
    omega
  · have := hentries (g.size + 1)
    omega

end Orderly

/-! ## Assembling -/

/-- The outcome of an operation that uses up the states of `old`.  All that it uses
and all that is new belong to one fragment. -/
structure Assembles (g : Graph) (made : Graph × Fragment) (old : Set Nat) : Prop where
  /-- The graph is orderly. -/
  orderly : made.1.Orderly
  /-- What is made owns used and new states. -/
  owns : made.1.Owns made.2 (old ∪ Set.Ico g.size made.1.size)
  /-- The graph grows. -/
  size_le : g.size ≤ made.1.size
  /-- All other states keep their steps. -/
  transitions_eq : ∀ id < g.size, id ∉ old → made.1.transitions id = g.transitions id

/-- A region shares no state with used states of others and with new states. -/
theorem Owns.disjoint (h : g.Owns f region) (hdisjoint : Disjoint region old) (n : Nat) :
    Disjoint region (old ∪ Set.Ico g.size n) := by
  refine Set.disjoint_union_right.mpr ⟨hdisjoint, Set.disjoint_left.mpr fun id hid hnew => ?_⟩
  exact absurd (Set.mem_Ico.mp hnew).1 (Nat.not_le_of_lt (h.lt_size id hid))

namespace Assembles

/-- A fragment that shares no state with what is used still owns its region. -/
theorem frame (h : g.Assembles made old) (hf : g.Owns f region) (hdisjoint : Disjoint region old) :
    made.1.Owns f region := by
  have hkept : ∀ id ∈ region, made.1.transitions id = g.transitions id := fun id hid =>
    h.transitions_eq id (hf.lt_size id hid) (Set.disjoint_left.mp hdisjoint hid)
  have hbetween := hf.between fun id hid t ht => (hkept id hid).symm ▸ ht
  have happart := hf.disjoint hdisjoint made.1.size
  exact {
    start_mem := hf.start_mem
    accept_mem := hf.accept_mem
    start_ne_accept := hf.start_ne_accept
    lt_size := fun id hid => Nat.lt_of_lt_of_le (hf.lt_size id hid) h.size_le
    closed := fun id hid t ht => hf.closed id hid t (hkept id hid ▸ ht)
    leads_from := fun id hid => (hbetween id hid).1
    leads_to := fun id hid => (hbetween id hid).2
    start_fresh := by
      intro source t ht
      by_cases hmade : source ∈ old ∪ Set.Ico g.size made.1.size
      · exact (happart.ne_of_mem hf.start_mem (h.owns.closed source hmade t ht)).symm
      · have hlt : source < g.size := by
          by_contra hle
          exact hmade (.inr ⟨Nat.le_of_not_lt hle, lt_size_of_mem ht⟩)
        rw [h.transitions_eq source hlt fun hold => hmade (.inl hold)] at ht
        exact hf.start_fresh source t ht
    accept_final := by
      rw [hkept _ hf.accept_mem]
      exact hf.accept_final }

/-- An operation may go on with what another one has made, and with further states. -/
theorem trans (hfirst : g.Assembles made old) (hsecond : made.1.Assembles next used)
    (hused : used = other ∪ (old ∪ Set.Ico g.size made.1.size)) :
    g.Assembles next (other ∪ old) where
  orderly := hsecond.orderly
  owns := by
    have hnew := Set.Ico_union_Ico_eq_Ico hfirst.size_le hsecond.size_le
    have howns := hsecond.owns
    rwa [hused, Set.union_assoc, Set.union_assoc, hnew, ← Set.union_assoc] at howns
  size_le := Nat.le_trans hfirst.size_le hsecond.size_le
  transitions_eq id hid hkept := by
    have hold : id ∉ old := fun h => hkept (.inr h)
    have hnew : id ∉ used := by
      rw [hused]
      rintro (h | h | h)
      · exact hkept (.inl h)
      · exact hold h
      · exact absurd h.1 (Nat.not_le_of_lt hid)
    rw [hsecond.transitions_eq id (Nat.lt_of_lt_of_le hid hfirst.size_le) hnew,
      hfirst.transitions_eq id hid hold]

end Assembles

/-! ## The operations -/

theorem assembles_atom (h : g.Orderly)
    (hlabel : label.kind.isOperand = true ∨ label = Token.epsilon) :
    g.Assembles (g.atom label) ∅ where
  orderly := h.atom hlabel
  owns := by
    rw [Set.empty_union, size_atom]
    exact owns_atom h label
  size_le := by
    rw [size_atom]
    exact Nat.le_add_right _ 2
  transitions_eq _ hid _ := transitions_atom_of_ne label (Nat.ne_of_lt hid)

theorem assembles_concat (h : g.Orderly) (hl : g.Owns lower A) (hu : g.Owns upper B)
    (hdisjoint : Disjoint A B) : g.Assembles (g.concat lower upper) (A ∪ B) where
  orderly := h.concat hl hu
  owns := by
    rw [size_concat, Set.Ico_self, Set.union_empty]
    exact owns_concat hl hu hdisjoint
  size_le := Nat.le_of_eq (size_concat g lower upper).symm
  transitions_eq id _ hkept := by
    refine transitions_concat_of_ne fun heq => hkept ?_
    rw [heq]
    exact .inl hl.accept_mem

theorem assembles_union (h : g.Orderly) (hl : g.Owns lower A) (hu : g.Owns upper B)
    (hdisjoint : Disjoint A B) : g.Assembles (g.union lower upper) (A ∪ B) where
  orderly := h.union hl hu hdisjoint
  owns := by
    rw [size_union]
    exact owns_union h hl hu
  size_le := by
    rw [size_union]
    exact Nat.le_add_right _ 2
  transitions_eq id hid hkept := by
    refine transitions_union_of_ne (Nat.ne_of_lt hid) ?_ ?_
    · exact fun heq => hkept (.inl (heq ▸ hl.accept_mem))
    · exact fun heq => hkept (.inr (heq ▸ hu.accept_mem))

theorem assembles_star (h : g.Orderly) (hi : g.Owns inner A) : g.Assembles (g.star inner) A where
  orderly := h.star hi
  owns := by
    rw [size_star]
    exact owns_star h hi
  size_le := by
    rw [size_star]
    exact Nat.le_add_right _ 2
  transitions_eq id hid hkept :=
    transitions_star_of_ne (Nat.ne_of_lt hid) fun heq => hkept (heq ▸ hi.accept_mem)

theorem assembles_question (h : g.Orderly) (hi : g.Owns inner A) :
    g.Assembles (g.question inner) A := by
  have hblank : g.Assembles g.blank ∅ := assembles_atom h (.inr rfl)
  have hinner := hblank.frame hi (Set.disjoint_empty A)
  have hunion := assembles_union hblank.orderly hinner hblank.owns
    (hi.disjoint (Set.disjoint_empty A) _)
  have hmade := hblank.trans hunion rfl
  rwa [Set.union_empty] at hmade

theorem assembles_copied (h : g.Orderly) (hf : g.Owns f A) :
    g.Assembles (g.copied (g.reachable f.start),
      ⟨g.size, g.renamed (g.reachable f.start) f.accept⟩) ∅ where
  orderly := h.copied (nodup_reachable g f.start)
    (fun id hid => hf.lt_size id (hf.mem_iff.mp hid)) (closed_reachable g f.start)
  owns := by
    rw [Set.empty_union]
    exact owns_copied h hf
  size_le := by
    rw [size_copied]
    exact Nat.le_add_right _ _
  transitions_eq _ hid _ := transitions_copied_of_lt hid _

/-- A fragment that owns a region can always be passed at least once. -/
theorem assembles_plus (h : g.Orderly) (hi : g.Owns inner A) :
    ∃ made, g.plus inner = some made ∧ g.Assembles made A := by
  have hcopied := assembles_copied h hi
  have hstar := hcopied.trans (assembles_star hcopied.orderly hcopied.owns) (Set.empty_union _).symm
  rw [Set.empty_union] at hstar
  have hinner := hstar.frame hi (Set.disjoint_empty A)
  have hconcat := assembles_concat hstar.orderly hinner hstar.owns
    (hi.disjoint (Set.disjoint_empty A) _)
  have hmade := hstar.trans hconcat rfl
  rw [Set.union_empty] at hmade
  refine ⟨_, ?_, hmade⟩
  rw [plus, copy_eq (hi.mem_iff.mpr hi.accept_mem)]
  rfl

end PatternAutomata.Graph
