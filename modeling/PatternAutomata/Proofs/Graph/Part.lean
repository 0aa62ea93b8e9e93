import Mathlib.Order.CompletePartialOrder
import PatternAutomata.Graph.Fragment
import PatternAutomata.Proofs.Graph.Walk

/-!
# Parts of a graph

A fragment is a part of a graph if it has a region to itself: a set of states
that holds its start and its accept, and that no step leaves.  A part comes with
the language that it reads.

The operations on fragments make parts out of parts, and each of them does to the
languages what the operation on expressions does.  The regions of two operands
must be disjoint.  Then a walk through the result can be cut where it leaves the
region of an operand, and there is one way out of it, the accept.

No operation changes the steps of a state outside the regions of its operands
(`transitions_union_of_ne` and its like), so the other parts of the graph stay
what they are (`Part.frame`).
-/

namespace PatternAutomata

/-- A fragment with a region to itself that reads a language. -/
structure Part (g : Graph) (f : Fragment) (region : Set Nat) (language : Language String) :
    Prop where
  /-- The region holds the start. -/
  start_mem : f.start ∈ region
  /-- The region holds the accept. -/
  accept_mem : f.accept ∈ region
  /-- The region holds states only. -/
  lt_size : ∀ id ∈ region, id < g.size
  /-- No step leaves the region. -/
  closed : g.Closed region
  /-- The language is read from the start to the accept. -/
  words_eq : g.words f.start f.accept = language

namespace Part

variable {g g' : Graph} {f : Fragment} {region : Set Nat} {L : Language String}

theorem mem_iff (h : Part g f region L) {w : List String} :
    w ∈ L ↔ Walk g f.start w f.accept := by
  rw [← h.words_eq, Graph.mem_words]

theorem ne_size (h : Part g f region L) {id : Nat} (hid : id ∈ region) : id ≠ g.size :=
  Nat.ne_of_lt (h.lt_size id hid)

theorem ne_size_succ (h : Part g f region L) {id : Nat} (hid : id ∈ region) :
    id ≠ g.size + 1 := by
  have := h.lt_size id hid
  omega

/-- A part stays what it is when nothing happens in its region. -/
theorem frame (h : Part g f region L) (hsize : g.size ≤ g'.size)
    (hagree : ∀ id ∈ region, g'.transitions id = g.transitions id) : Part g' f region L where
  start_mem := h.start_mem
  accept_mem := h.accept_mem
  lt_size id hid := Nat.lt_of_lt_of_le (h.lt_size id hid) hsize
  closed id hid t ht := h.closed id hid t (hagree id hid ▸ ht)
  words_eq := by
    rw [← h.words_eq]
    ext w
    exact Walk.frame h.closed hagree h.start_mem

end Part

namespace Walk

variable {g : Graph} {a b c : Nat} {w : List String}

/-- A silent step in front of a walk. -/
theorem skip (mem : (⟨Token.epsilon, b⟩ : Transition) ∈ g.transitions a) (rest : Walk g b w c) :
    Walk g a w c := .silent mem rfl rest

/-- A walk from one state to another has a first step. -/
theorem exists_step (walk : Walk g a w b) (hne : a ≠ b) :
    ∃ t ∈ g.transitions a, ∃ v, w = t.word ++ v ∧ Walk g t.target v b := by
  cases walk using stepwise with
  | here => exact absurd rfl hne
  | step mem rest => exact ⟨_, mem, _, rfl, rest⟩

/-- Where no step goes on, a walk ends at once. -/
theorem eq_nil_of_transitions_eq_nil (h : g.transitions a = []) (walk : Walk g a w b) :
    w = [] := by
  cases walk with
  | here => rfl
  | silent mem | read mem =>
    rw [h] at mem
    cases mem

end Walk

namespace Graph

variable {g : Graph} {lower upper inner f : Fragment} {id : Nat} {t : Transition}
variable {A B : Set Nat} {L M : Language String} {w : List String}

theorem le_of_mem_pair (h : id ∈ ({g.size, g.size + 1} : Set Nat)) : g.size ≤ id := by
  rcases h with rfl | rfl
  · exact Nat.le_refl _
  · exact Nat.le_succ _

theorem lt_of_mem_pair (h : id ∈ ({g.size, g.size + 1} : Set Nat)) : id < g.size + 2 := by
  rcases h with rfl | rfl <;> omega

/-- No step leads out of the two states that are added next. -/
theorem transitions_of_mem_pair (h : id ∈ ({g.size, g.size + 1} : Set Nat)) :
    g.transitions id = [] := transitions_of_size_le (le_of_mem_pair h)

/-! ## Operands -/

theorem transitions_atom_of_ne (label : Token) (h : id ≠ g.size) :
    (g.atom label).1.transitions id = g.transitions id := by
  simp [atom, nextPair, transitions_link_of_ne h]

theorem transitions_atom_size (label : Token) :
    (g.atom label).1.transitions g.size = [⟨label, g.size + 1⟩] := by
  have hlt : g.size < g.grow.grow.size := by
    rw [size_grow, size_grow]
    omega
  change (g.grow.grow.link g.size label (g.size + 1)).transitions g.size = _
  rw [transitions_link, if_pos ⟨rfl, hlt⟩, transitions_grow, transitions_grow,
    transitions_of_size_le (Nat.le_refl _), List.nil_append]

/-- Two new states with a single step between them read what the step reads. -/
theorem part_atom (g : Graph) (label : Token) :
    Part (g.atom label).1 (g.atom label).2 {g.size, g.size + 1}
      {(⟨label, g.size + 1⟩ : Transition).word} where
  start_mem := .inl rfl
  accept_mem := .inr rfl
  lt_size id hid := by
    rw [size_atom]
    exact lt_of_mem_pair hid
  closed id hid t ht := by
    rcases hid with rfl | rfl
    · rw [transitions_atom_size, List.mem_singleton] at ht
      rw [ht]
      exact .inr rfl
    · rw [transitions_atom_of_ne label (by omega), transitions_of_size_le (by omega)] at ht
      cases ht
  words_eq := by
    have hend : (g.atom label).1.transitions (g.size + 1) = [] := by
      rw [transitions_atom_of_ne label (by omega), transitions_of_size_le (by omega)]
    ext w
    constructor
    · intro walk
      obtain ⟨t, mem, v, rfl, rest⟩ := walk.exists_step (Nat.ne_of_lt (Nat.lt_succ_self g.size))
      change t ∈ (g.atom label).1.transitions g.size at mem
      rw [transitions_atom_size, List.mem_singleton] at mem
      subst mem
      rw [rest.eq_nil_of_transitions_eq_nil hend, List.append_nil]
      rfl
    · rintro rfl
      have hstep : (⟨label, g.size + 1⟩ : Transition) ∈ (g.atom label).1.transitions g.size := by
        rw [transitions_atom_size]
        exact List.mem_singleton_self _
      have walk := Walk.step hstep (.here (g.size + 1))
      rwa [List.append_nil] at walk

/-- Two new states with a silent step between them read the empty word. -/
theorem part_blank (g : Graph) : Part g.blank.1 g.blank.2 {g.size, g.size + 1} 1 :=
  part_atom g Token.epsilon

/-! ## One part after the other -/

theorem transitions_concat_of_ne (h : id ≠ lower.accept) :
    (g.concat lower upper).1.transitions id = g.transitions id :=
  transitions_skip_of_ne h upper.start

theorem mem_transitions_concat :
    t ∈ (g.concat lower upper).1.transitions id ↔
      t ∈ g.transitions id ∨ (id = lower.accept ∧ id < g.size) ∧ t = ⟨Token.epsilon, upper.start⟩ :=
  mem_transitions_skip

/-- The upper part stays what it is. -/
theorem part_concat_upper (hl : Part g lower A L) (hu : Part g upper B M)
    (hdisjoint : Disjoint A B) :
    Part (g.concat lower upper).1 upper B M := by
  refine hu.frame (Nat.le_of_eq (size_concat g lower upper).symm) fun id hid => ?_
  refine transitions_concat_of_ne ?_
  rintro rfl
  exact Set.disjoint_left.mp hdisjoint hl.accept_mem hid

/-- A walk through both parts leaves the lower one through the new step. -/
theorem words_concat_le (hl : Part g lower A L) (hu : Part g upper B M)
    (hdisjoint : Disjoint A B) :
    (g.concat lower upper).1.words lower.start upper.accept ≤ L * M := by
  intro w walk
  rw [← hl.words_eq]
  refine Walk.mem_words_mul hl.closed
    (fun h => Set.disjoint_left.mp hdisjoint h hu.accept_mem) ?_ hl.start_mem walk
  intro id hid t ht
  rcases mem_transitions_concat.mp ht with hold | ⟨⟨heq, -⟩, rfl⟩
  · exact .inl hold
  · refine .inr ⟨heq, fun v rest _ => ?_⟩
    exact (part_concat_upper hl hu hdisjoint).mem_iff.mpr rest

theorem mul_le_words_concat (hl : Part g lower A L) (hu : Part g upper B M) :
    L * M ≤ (g.concat lower upper).1.words lower.start upper.accept := by
  have hmono : ∀ id, ∀ t ∈ g.transitions id, t ∈ (g.concat lower upper).1.transitions id :=
    fun id t ht => mem_transitions_concat.mpr (.inl ht)
  have hbridge : (⟨Token.epsilon, upper.start⟩ : Transition) ∈
      (g.concat lower upper).1.transitions lower.accept :=
    mem_transitions_concat.mpr (.inr ⟨⟨rfl, hl.lt_size _ hl.accept_mem⟩, rfl⟩)
  intro w hw
  obtain ⟨u, hu', v, hv, rfl⟩ := Language.mem_mul.mp hw
  exact ((hl.mem_iff.mp hu').mono hmono).append
    (.skip hbridge ((hu.mem_iff.mp hv).mono hmono))

/-- One part after the other reads the product. -/
theorem part_concat (hl : Part g lower A L) (hu : Part g upper B M)
    (hdisjoint : Disjoint A B) :
    Part (g.concat lower upper).1 (g.concat lower upper).2 (A ∪ B) (L * M) where
  start_mem := .inl hl.start_mem
  accept_mem := .inr hu.accept_mem
  lt_size id hid := by
    rw [size_concat]
    exact hid.elim (hl.lt_size id) (hu.lt_size id)
  closed id hid t ht := by
    rcases mem_transitions_concat.mp ht with hold | ⟨-, rfl⟩
    · exact hid.imp (hl.closed id · t hold) (hu.closed id · t hold)
    · exact .inr hu.start_mem
  words_eq := le_antisymm (words_concat_le hl hu hdisjoint) (mul_le_words_concat hl hu)

/-! ## A choice between two parts -/

theorem transitions_union_of_ne (hn : id ≠ g.size) (hl : id ≠ lower.accept)
    (hu : id ≠ upper.accept) : (g.union lower upper).1.transitions id = g.transitions id := by
  simp [union, nextPair, transitions_skip_of_ne, hn, hl, hu]

theorem mem_transitions_union :
    t ∈ (g.union lower upper).1.transitions id ↔
      t ∈ g.transitions id ∨
      id = g.size ∧ (t = ⟨Token.epsilon, lower.start⟩ ∨ t = ⟨Token.epsilon, upper.start⟩) ∨
      (id = lower.accept ∨ id = upper.accept) ∧ id < g.size + 2 ∧
        t = ⟨Token.epsilon, g.size + 1⟩ := by
  simp only [union, nextPair, mem_transitions_skip, transitions_grow, size_skip, size_grow]
  constructor
  · rintro ((((h | h) | h) | h) | h)
    · exact .inl h
    · exact .inr (.inl ⟨h.1.1, .inl h.2⟩)
    · exact .inr (.inl ⟨h.1.1, .inr h.2⟩)
    · exact .inr (.inr ⟨.inl h.1.1, h.1.2, h.2⟩)
    · exact .inr (.inr ⟨.inr h.1.1, h.1.2, h.2⟩)
  · rintro (h | ⟨rfl, h | h⟩ | ⟨h | h, hlt, ht⟩)
    · exact .inl (.inl (.inl (.inl h)))
    · exact .inl (.inl (.inl (.inr ⟨⟨rfl, by omega⟩, h⟩)))
    · exact .inl (.inl (.inr ⟨⟨rfl, by omega⟩, h⟩))
    · exact .inl (.inr ⟨⟨h, hlt⟩, ht⟩)
    · exact .inr ⟨⟨h, hlt⟩, ht⟩

/-- A walk from an operand to the new accept spells a word of the operand. -/
theorem mem_of_walk_union (h : Part g f A L) (hl : lower.accept < g.size)
    (hu : upper.accept < g.size)
    (honly : ∀ id ∈ A, id = lower.accept ∨ id = upper.accept → id = f.accept)
    (walk : Walk (g.union lower upper).1 f.start w (g.size + 1)) : w ∈ L := by
  have hend : (g.union lower upper).1.transitions (g.size + 1) = [] := by
    rw [transitions_union_of_ne (by omega) (by omega) (by omega), transitions_of_size_le (by omega)]
  have hlast : g.size + 1 ∉ A := fun hid => h.ne_size_succ hid rfl
  have hmem : w ∈ g.words f.start f.accept * 1 := by
    refine walk.mem_words_mul h.closed hlast ?_ h.start_mem
    intro id hid t ht
    rcases mem_transitions_union.mp ht with hold | ⟨heq, -⟩ | ⟨heq, -, rfl⟩
    · exact .inl hold
    · exact absurd heq (h.ne_size hid)
    · refine .inr ⟨honly id hid heq, fun v rest _ => ?_⟩
      rw [rest.eq_nil_of_transitions_eq_nil hend]
      exact Language.nil_mem_one
  rwa [mul_one, h.words_eq] at hmem

theorem words_union_le (hl : Part g lower A L) (hu : Part g upper B M)
    (hdisjoint : Disjoint A B) :
    (g.union lower upper).1.words g.size (g.size + 1) ≤ L + M := by
  have hlt : lower.accept < g.size := hl.lt_size _ hl.accept_mem
  have hut : upper.accept < g.size := hu.lt_size _ hu.accept_mem
  intro w walk
  obtain ⟨t, mem, v, rfl, rest⟩ := Walk.exists_step walk (Nat.ne_of_lt (Nat.lt_succ_self g.size))
  rcases mem_transitions_union.mp mem with hold | ⟨-, rfl | rfl⟩ | ⟨heq, -⟩
  · rw [transitions_of_size_le (Nat.le_refl _)] at hold
    cases hold
  · refine .inl (mem_of_walk_union hl hlt hut ?_ rest)
    rintro id hid (heq | rfl)
    · exact heq
    · exact absurd hu.accept_mem (Set.disjoint_left.mp hdisjoint hid)
  · refine .inr (mem_of_walk_union hu hlt hut ?_ rest)
    rintro id hid (rfl | heq)
    · exact absurd hid (Set.disjoint_left.mp hdisjoint hl.accept_mem)
    · exact heq
  · omega

/-- A walk through an operand becomes a walk from the new start to the new accept. -/
theorem walk_union (h : Part g f A L) (hf : f = lower ∨ f = upper) (hw : w ∈ L) :
    Walk (g.union lower upper).1 g.size w (g.size + 1) := by
  have hmono : ∀ id, ∀ t ∈ g.transitions id, t ∈ (g.union lower upper).1.transitions id :=
    fun id t ht => mem_transitions_union.mpr (.inl ht)
  have henter : (⟨Token.epsilon, f.start⟩ : Transition) ∈
      (g.union lower upper).1.transitions g.size := by
    refine mem_transitions_union.mpr (.inr (.inl ⟨rfl, ?_⟩))
    exact hf.imp (fun heq => by rw [heq]) fun heq => by rw [heq]
  have hexit : (⟨Token.epsilon, g.size + 1⟩ : Transition) ∈
      (g.union lower upper).1.transitions f.accept := by
    refine mem_transitions_union.mpr (.inr (.inr ⟨?_, ?_, rfl⟩))
    · exact hf.imp (fun heq => by rw [heq]) fun heq => by rw [heq]
    · exact Nat.lt_add_right 2 (h.lt_size _ h.accept_mem)
  have walk := ((h.mem_iff.mp hw).mono hmono).append (.skip hexit (.here (g.size + 1)))
  rw [List.append_nil] at walk
  exact .skip henter walk

/-- A choice between two parts reads the sum. -/
theorem part_union (hl : Part g lower A L) (hu : Part g upper B M)
    (hdisjoint : Disjoint A B) :
    Part (g.union lower upper).1 (g.union lower upper).2 ({g.size, g.size + 1} ∪ (A ∪ B))
      (L + M) where
  start_mem := .inl (.inl rfl)
  accept_mem := .inl (.inr rfl)
  lt_size id hid := by
    rw [size_union]
    rcases hid with hid | hid | hid
    · exact lt_of_mem_pair hid
    · exact Nat.lt_add_right 2 (hl.lt_size id hid)
    · exact Nat.lt_add_right 2 (hu.lt_size id hid)
  closed id hid t ht := by
    rcases mem_transitions_union.mp ht with hold | ⟨-, rfl | rfl⟩ | ⟨-, -, rfl⟩
    · rcases hid with hid | hid | hid
      · rw [transitions_of_mem_pair hid] at hold
        cases hold
      · exact .inr (.inl (hl.closed id hid t hold))
      · exact .inr (.inr (hu.closed id hid t hold))
    · exact .inr (.inl hl.start_mem)
    · exact .inr (.inr hu.start_mem)
    · exact .inl (.inr rfl)
  words_eq := by
    refine le_antisymm (words_union_le hl hu hdisjoint) fun w hw => ?_
    exact hw.elim (walk_union hl (.inl rfl)) (walk_union hu (.inr rfl))

/-! ## Any number of passes through a part -/

theorem transitions_star_of_ne (hn : id ≠ g.size) (hi : id ≠ inner.accept) :
    (g.star inner).1.transitions id = g.transitions id := by
  simp [star, nextPair, transitions_skip_of_ne, hn, hi]

theorem mem_transitions_star :
    t ∈ (g.star inner).1.transitions id ↔
      t ∈ g.transitions id ∨
      (id = g.size ∨ id = inner.accept) ∧ id < g.size + 2 ∧
        (t = ⟨Token.epsilon, inner.start⟩ ∨ t = ⟨Token.epsilon, g.size + 1⟩) := by
  simp only [star, nextPair, mem_transitions_skip, transitions_grow, size_skip, size_grow]
  constructor
  · rintro ((((h | h) | h) | h) | h)
    · exact .inl h
    · exact .inr ⟨.inl h.1.1, h.1.2, .inl h.2⟩
    · exact .inr ⟨.inl h.1.1, h.1.2, .inr h.2⟩
    · exact .inr ⟨.inr h.1.1, h.1.2, .inl h.2⟩
    · exact .inr ⟨.inr h.1.1, h.1.2, .inr h.2⟩
  · rintro (h | ⟨h | h, hlt, ht | ht⟩)
    · exact .inl (.inl (.inl (.inl h)))
    · exact .inl (.inl (.inl (.inr ⟨⟨h, hlt⟩, ht⟩)))
    · exact .inl (.inl (.inr ⟨⟨h, hlt⟩, ht⟩))
    · exact .inl (.inr ⟨⟨h, hlt⟩, ht⟩)
    · exact .inr ⟨⟨h, hlt⟩, ht⟩

theorem transitions_star_size_succ (h : Part g inner A L) :
    (g.star inner).1.transitions (g.size + 1) = [] := by
  have hlt : inner.accept < g.size := h.lt_size _ h.accept_mem
  rw [transitions_star_of_ne (by omega) (by omega), transitions_of_size_le (by omega)]

/-- Behind a step to the inner start stand one more pass and all the others. -/
theorem mem_mul_kstar_of_walk_star (h : Part g inner A L)
    (walk : Walk (g.star inner).1 inner.start w (g.size + 1)) : w ∈ L * KStar.kstar L := by
  have hlast : g.size + 1 ∉ A := fun hid => h.ne_size_succ hid rfl
  have hloop : L * KStar.kstar L ≤ KStar.kstar L := mul_kstar_le_kstar
  rw [← h.words_eq]
  refine walk.mem_words_mul h.closed hlast ?_ h.start_mem
  intro id hid t ht
  rcases mem_transitions_star.mp ht with hold | ⟨heq, -, rfl | rfl⟩
  · exact .inl hold
  · refine .inr ⟨heq.resolve_left (h.ne_size hid), fun v _ hback => ?_⟩
    have hv := hback h.start_mem
    rw [h.words_eq] at hv ⊢
    exact hloop hv
  · refine .inr ⟨heq.resolve_left (h.ne_size hid), fun v rest _ => ?_⟩
    rw [rest.eq_nil_of_transitions_eq_nil (transitions_star_size_succ h)]
    exact Language.nil_mem_kstar _

theorem words_star_le (h : Part g inner A L) :
    (g.star inner).1.words g.size (g.size + 1) ≤ KStar.kstar L := by
  have hloop : L * KStar.kstar L ≤ KStar.kstar L := mul_kstar_le_kstar
  intro w walk
  obtain ⟨t, mem, v, rfl, rest⟩ := Walk.exists_step walk (Nat.ne_of_lt (Nat.lt_succ_self g.size))
  rcases mem_transitions_star.mp mem with hold | ⟨-, -, rfl | rfl⟩
  · rw [transitions_of_size_le (Nat.le_refl _)] at hold
    cases hold
  · exact hloop (mem_mul_kstar_of_walk_star h rest)
  · rw [rest.eq_nil_of_transitions_eq_nil (transitions_star_size_succ h)]
    exact Language.nil_mem_kstar _

/-- From the new start and from the inner accept one can go on with any number of
passes. -/
theorem kstar_le_words_star (h : Part g inner A L) (hid : id = g.size ∨ id = inner.accept) :
    KStar.kstar L ≤ (g.star inner).1.words id (g.size + 1) := by
  have hmono : ∀ id, ∀ t ∈ g.transitions id, t ∈ (g.star inner).1.transitions id :=
    fun id t ht => mem_transitions_star.mpr (.inl ht)
  have hlt : inner.accept < g.size := h.lt_size _ h.accept_mem
  have hnew : ∀ {id target}, id = g.size ∨ id = inner.accept →
      target = inner.start ∨ target = g.size + 1 →
      (⟨Token.epsilon, target⟩ : Transition) ∈ (g.star inner).1.transitions id := by
    intro id target hid htarget
    refine mem_transitions_star.mpr (.inr ⟨hid, by omega, ?_⟩)
    exact htarget.imp (fun heq => by rw [heq]) fun heq => by rw [heq]
  have hpass : ∀ {id}, id = g.size ∨ id = inner.accept →
      L * (g.star inner).1.words inner.accept (g.size + 1) ≤
        (g.star inner).1.words id (g.size + 1) := by
    intro id hid w hw
    obtain ⟨u, hu, v, hv, rfl⟩ := Language.mem_mul.mp hw
    exact .skip (hnew hid (.inl rfl)) (((h.mem_iff.mp hu).mono hmono).append hv)
  have hstop : ∀ {id}, id = g.size ∨ id = inner.accept →
      (1 : Language String) ≤ (g.star inner).1.words id (g.size + 1) := by
    rintro id hid w rfl
    exact .skip (hnew hid (.inr rfl)) (.here _)
  have hstar := kstar_le_of_mul_le_right (hstop (.inr rfl)) (hpass (.inr rfl))
  intro w hw
  rw [← Language.one_add_self_mul_kstar_eq_kstar] at hw
  rcases hw with hw | hw
  · exact hstop hid hw
  · obtain ⟨u, hu, v, hv, rfl⟩ := Language.mem_mul.mp hw
    exact hpass hid (Language.append_mem_mul hu (hstar hv))

/-- Any number of passes through a part reads the Kleene star. -/
theorem part_star (h : Part g inner A L) :
    Part (g.star inner).1 (g.star inner).2 ({g.size, g.size + 1} ∪ A) (KStar.kstar L) where
  start_mem := .inl (.inl rfl)
  accept_mem := .inl (.inr rfl)
  lt_size id hid := by
    rw [size_star]
    rcases hid with hid | hid
    · exact lt_of_mem_pair hid
    · exact Nat.lt_add_right 2 (h.lt_size id hid)
  closed id hid t ht := by
    rcases mem_transitions_star.mp ht with hold | ⟨-, -, rfl | rfl⟩
    · rcases hid with hid | hid
      · rw [transitions_of_mem_pair hid] at hold
        cases hold
      · exact .inr (h.closed id hid t hold)
    · exact .inr h.start_mem
    · exact .inl (.inr rfl)
  words_eq := le_antisymm (words_star_le h) (kstar_le_words_star h (.inl rfl))

end Graph

end PatternAutomata
