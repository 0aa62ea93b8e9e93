import PatternAutomata.Builder
import PatternAutomata.Proofs.Graph.Assembles

/-!
# Who owns the states of a builder

In every builder that a postorder leads to, the states are divided among the
fragments on the stack.  Every fragment owns a region, no two regions share a state,
and every state belongs to a region (`Builder.Owned`).  The graph is orderly too, and
both together are what a token preserves (`Builder.Sound`).

A token leads from a sound builder to a sound builder, or it is an operator that
lacks an operand (`Builder.apply_cases`).  So a whole postorder leads to a sound
builder, or one of its operators lacks an operand (`Builder.foldlM_cases`).
-/

namespace PatternAutomata

namespace Builder

variable {b : Builder} {t : Token} {g : Graph} {made : Graph × Fragment} {rest : List Fragment}
variable {regions : List (Set Nat)} {old : Set Nat}

/-- Every fragment on the stack owns a region, and the regions divide the states
among them. -/
def Owned (b : Builder) : Prop :=
  ∃ regions : List (Set Nat), List.Forall₂ b.graph.Owns b.stack regions ∧
    regions.Pairwise Disjoint ∧ ∀ id, id < b.graph.size ↔ ∃ region ∈ regions, id ∈ region

/-- What a token preserves. -/
structure Sound (b : Builder) : Prop where
  /-- The graph is orderly. -/
  orderly : b.graph.Orderly
  /-- The states are divided among the fragments. -/
  owned : b.Owned

theorem sound_empty : empty.Sound := by
  refine ⟨Graph.orderly_empty, [], .nil, .nil, fun id => ⟨fun hid => ?_, fun h => ?_⟩⟩
  · exact absurd hid (Nat.not_lt_zero id)
  · obtain ⟨region, hregion, -⟩ := h
    cases hregion

/-- Fragments that share no state with what is used keep their regions. -/
theorem forall₂_frame (hmade : g.Assembles made old) (hrest : List.Forall₂ g.Owns rest regions)
    (hapart : ∀ region ∈ regions, Disjoint region old) :
    List.Forall₂ made.1.Owns rest regions := by
  induction hrest with
  | nil => exact .nil
  | cons howns _ ih =>
    obtain ⟨hfirst, hothers⟩ := List.forall_mem_cons.mp hapart
    exact .cons (hmade.frame howns hfirst) (ih hothers)

/-- What is made from some regions and new states goes on top of the fragments that
own the other regions. -/
theorem sound_push (hmade : g.Assembles made old) (hrest : List.Forall₂ g.Owns rest regions)
    (hpairwise : regions.Pairwise Disjoint) (hapart : ∀ region ∈ regions, Disjoint region old)
    (hcover : ∀ id, id < g.size ↔ id ∈ old ∨ ∃ region ∈ regions, id ∈ region) :
    (push rest made).Sound := by
  refine ⟨hmade.orderly, (old ∪ Set.Ico g.size made.1.size) :: regions,
    .cons hmade.owns (forall₂_frame hmade hrest hapart), .cons ?_ hpairwise, fun id => ?_⟩
  · intro region hregion
    refine Set.disjoint_union_left.mpr ⟨(hapart region hregion).symm, ?_⟩
    refine Set.disjoint_left.mpr fun id hnew hid => ?_
    have hlt : id < g.size := (hcover id).mpr (.inr ⟨region, hregion, hid⟩)
    exact absurd (Set.mem_Ico.mp hnew).1 (Nat.not_le_of_lt hlt)
  · change id < made.1.size ↔ _
    rw [List.exists_mem_cons_iff, Set.mem_union, Set.mem_Ico, or_assoc, or_left_comm, ← hcover id]
    have := hmade.size_le
    omega

/-! ## A token -/

/-- An operator on the newest fragment finds none, or makes a sound builder. -/
theorem unary_cases {make : Graph → Fragment → Except BuildFault (Graph × Fragment)}
    (h : b.Sound)
    (hmake : ∀ {g : Graph} {inner : Fragment} {A : Set Nat}, g.Orderly → g.Owns inner A →
      ∃ made, make g inner = .ok made ∧ g.Assembles made A) :
    (∃ b', b.unary t make = .ok b' ∧ b'.Sound) ∨
      b.unary t make = .error (BuildCause.missingOperand.fault t.position) := by
  obtain ⟨g, stack⟩ := b
  obtain ⟨horderly, regions, hall, hpairwise, hcover⟩ := h
  cases hall with
  | nil => exact .inr rfl
  | @cons inner A rest regions hinner hrest =>
    obtain ⟨made, heq, hmade⟩ := hmake horderly hinner
    rw [List.pairwise_cons] at hpairwise
    refine .inl ⟨push rest made, ?_, ?_⟩
    · change (make g inner).map (push rest) = _
      rw [heq]
      rfl
    · refine sound_push hmade hrest hpairwise.2 (fun R hR => (hpairwise.1 R hR).symm) fun id => ?_
      have hid := hcover id
      rwa [List.exists_mem_cons_iff] at hid

/-- An operator on the two newest fragments finds fewer, or makes a sound builder. -/
theorem binary_cases {make : Graph → Fragment → Fragment → Graph × Fragment} (h : b.Sound)
    (hmake : ∀ {g : Graph} {lower upper : Fragment} {A B : Set Nat}, g.Orderly →
      g.Owns lower A → g.Owns upper B → Disjoint A B →
        g.Assembles (make g lower upper) (A ∪ B)) :
    (∃ b', b.binary t make = .ok b' ∧ b'.Sound) ∨
      b.binary t make = .error (BuildCause.missingOperand.fault t.position) := by
  obtain ⟨g, stack⟩ := b
  obtain ⟨horderly, regions, hall, hpairwise, hcover⟩ := h
  cases hall with
  | nil => exact .inr rfl
  | @cons upper B stack regions hupper hrest =>
    cases hrest with
    | nil => exact .inr rfl
    | @cons lower A rest regions hlower hrest =>
      rw [List.pairwise_cons, List.pairwise_cons, List.forall_mem_cons] at hpairwise
      obtain ⟨⟨hBA, hB⟩, hA, hpairwise⟩ := hpairwise
      have hmade := hmake horderly hlower hupper hBA.symm
      refine .inl ⟨push rest (make g lower upper), rfl, ?_⟩
      refine sound_push hmade hrest hpairwise (fun R hR => ?_) fun id => ?_
      · exact Set.disjoint_union_right.mpr ⟨(hA R hR).symm, (hB R hR).symm⟩
      · have hid := hcover id
        rwa [List.exists_mem_cons_iff, List.exists_mem_cons_iff, or_left_comm, ← or_assoc] at hid

/-- A token leads from a sound builder to a sound one, or lacks an operand. -/
theorem apply_cases (h : b.Sound) (t : Token) :
    (∃ b', b.apply t = .ok b' ∧ b'.Sound) ∨
      b.apply t = .error (BuildCause.missingOperand.fault t.position) := by
  unfold apply
  cases hkind : t.kind with
  | literal | escape =>
    obtain ⟨horderly, regions, hall, hpairwise, hcover⟩ := h
    have hoperand : t.kind.isOperand = true := by rw [hkind]; rfl
    refine .inl ⟨_, rfl, ?_⟩
    refine sound_push (Graph.assembles_atom horderly (.inl hoperand)) hall hpairwise
      (fun R _ => Set.disjoint_empty R) fun id => ?_
    rw [or_iff_right (Set.notMem_empty id)]
    exact hcover id
  | concat => exact binary_cases h fun _ => Graph.assembles_concat ‹_›
  | union => exact binary_cases h fun horderly => Graph.assembles_union horderly
  | star => exact unary_cases h fun horderly hi => ⟨_, rfl, Graph.assembles_star horderly hi⟩
  | question =>
    exact unary_cases h fun horderly hi => ⟨_, rfl, Graph.assembles_question horderly hi⟩
  | plus =>
    refine unary_cases h fun horderly hi => ?_
    obtain ⟨made, heq, hmade⟩ := Graph.assembles_plus horderly hi
    exact ⟨made, by rw [plus, heq], hmade⟩
  | openParen | closeParen | epsilon | endMark => exact .inl ⟨b, rfl, h⟩

theorem Sound.of_apply {b' : Builder} (h : b.Sound) (hstep : b.apply t = .ok b') : b'.Sound := by
  rcases apply_cases h t with ⟨next, heq, hsound⟩ | hfault
  · rw [hstep] at heq
    cases heq
    exact hsound
  · rw [hstep] at hfault
    cases hfault

/-! ## A postorder -/

/-- A postorder leads from a sound builder to a sound one, or one of its tokens lacks
an operand. -/
theorem foldlM_cases (h : b.Sound) (rpn : List Token) :
    (∃ b', rpn.foldlM apply b = .ok b' ∧ b'.Sound) ∨
      ∃ t ∈ rpn, rpn.foldlM apply b = .error (BuildCause.missingOperand.fault t.position) := by
  induction rpn generalizing b with
  | nil => exact .inl ⟨b, rfl, h⟩
  | cons t rpn ih =>
    rw [List.foldlM_cons]
    rcases apply_cases h t with ⟨next, heq, hnext⟩ | hfault
    · rw [heq, ok_bind]
      rcases ih hnext with hgood | ⟨u, hu, hfault⟩
      · exact .inl hgood
      · exact .inr ⟨u, List.mem_cons_of_mem t hu, hfault⟩
    · rw [hfault]
      exact .inr ⟨t, List.mem_cons_self, rfl⟩

theorem sound_of_foldlM {rpn : List Token} (h : rpn.foldlM apply empty = .ok b) : b.Sound := by
  rcases foldlM_cases sound_empty rpn with ⟨b', heq, hsound⟩ | ⟨t, -, hfault⟩
  · rw [h] at heq
    cases heq
    exact hsound
  · rw [h] at hfault
    cases hfault

/-! ## The states of a builder -/

/-- Every fragment of a sound builder owns a region. -/
theorem Sound.exists_owns (h : b.Sound) {f : Fragment} (hf : f ∈ b.stack) :
    ∃ region, b.graph.Owns f region := by
  obtain ⟨regions, hall, -, -⟩ := h.owned
  obtain ⟨i, hi, rfl⟩ := List.mem_iff_getElem.mp hf
  exact ⟨_, hall.get hi (hall.length_eq ▸ hi)⟩

/-- No index that a sound builder holds is out of range. -/
theorem Sound.lt_size (h : b.Sound) :
    (∀ f ∈ b.stack, f.start < b.graph.size ∧ f.accept < b.graph.size) ∧
      ∀ id, ∀ t ∈ b.graph.transitions id, t.target < b.graph.size := by
  refine ⟨fun f hf => ?_, h.orderly.target_lt⟩
  obtain ⟨region, howns⟩ := h.exists_owns hf
  exact ⟨howns.lt_size _ howns.start_mem, howns.lt_size _ howns.accept_mem⟩

/-- In every builder that a list of tokens leads to, the states are divided among the
fragments.  The next token leads to such a builder again, unless it lacks an operand.
No index is ever out of range. -/
theorem owned_of_foldlM {rpn : List Token} (h : rpn.foldlM apply empty = .ok b) :
    b.Owned ∧
      (∀ t, (∃ b', b.apply t = .ok b' ∧ b'.Owned) ∨
        b.apply t = .error (BuildCause.missingOperand.fault t.position)) ∧
      (∀ f ∈ b.stack, f.start < b.graph.size ∧ f.accept < b.graph.size) ∧
      ∀ id, ∀ t ∈ b.graph.transitions id, t.target < b.graph.size := by
  have hsound := sound_of_foldlM h
  refine ⟨hsound.owned, fun t => ?_, hsound.lt_size⟩
  exact (apply_cases hsound t).imp_left fun ⟨b', heq, hb'⟩ => ⟨b', heq, hb'.owned⟩

/-- At least one letter, a token that is passed over, and an escape. -/
def letterPlusEscape : List Token :=
  [⟨.literal, "a", 0⟩, ⟨.plus, "+", 1⟩, ⟨.openParen, "(", 2⟩, ⟨.escape, "d", 3⟩]

/-- The builder behind `letterPlusEscape`, with two fragments. -/
def twoFragments : Builder :=
  ⟨⟨#[
    ⟨0, [⟨⟨.literal, "a", 0⟩, 1⟩]⟩,
    ⟨1, [⟨Token.epsilon, 4⟩]⟩,
    ⟨2, [⟨⟨.literal, "a", 0⟩, 3⟩]⟩,
    ⟨3, [⟨Token.epsilon, 2⟩, ⟨Token.epsilon, 5⟩]⟩,
    ⟨4, [⟨Token.epsilon, 2⟩, ⟨Token.epsilon, 5⟩]⟩,
    ⟨5, []⟩,
    ⟨6, [⟨⟨.escape, "d", 3⟩, 7⟩]⟩,
    ⟨7, []⟩]⟩, [⟨6, 7⟩, ⟨0, 5⟩]⟩

theorem owned_of_foldlM_twoFragments :
    letterPlusEscape.foldlM apply empty = .ok twoFragments ∧ twoFragments.Owned ∧
      ∃ b', twoFragments.apply ⟨.union, "|", 5⟩ = .ok b' ∧ b'.Owned := by
  have hrun : letterPlusEscape.foldlM apply empty = .ok twoFragments := rfl
  obtain ⟨howned, hnext, -⟩ := owned_of_foldlM hrun
  refine ⟨hrun, howned, (hnext ⟨.union, "|", 5⟩).resolve_right fun hfault => ?_⟩
  cases hfault

end Builder

end PatternAutomata
