import Mathlib.Data.Finset.Card
import PatternAutomata.Proofs.Graph.Assembles

/-!
# Graphs inside graphs

A graph stands inside another one if its states have new names there, and the
transitions between them are the same up to these names and to new labels
(`Graph.Embeds`).  The larger graph may hold states of its own, which come first and
have nothing to do with the rest.

States that are added to both graphs get matching names, so the operations on
fragments can be done in both graphs in step.  What they make stands inside each
other again (`Graph.Mirrors`).  There is one lemma for each operation.

A copy is the only operation that looks at more than the two ends of a fragment.  It
numbers the states in the order of a search, and a search finds the same states in
the same order under any names (`Embeds.reachable_eq`).
-/

namespace PatternAutomata

/-! ## New names and labels -/

/-- A token with another content, unless it labels a transition that reads nothing. -/
def Token.relabel (f : Token → Token) (t : Token) : Token := if t.isEpsilon then t else f t

@[simp] theorem Token.relabel_id (t : Token) : t.relabel id = t := ite_self t

theorem Token.relabel_of_isOperand {t : Token} (f : Token → Token) (h : t.kind.isOperand = true) :
    t.relabel f = f t := by
  refine if_neg fun hsilent => ?_
  rw [isEpsilon, beq_iff_eq] at hsilent
  rw [hsilent] at h
  cases h

/-- A step with another label and another target. -/
def Transition.move (f : Token → Token) (names : Nat → Nat) (t : Transition) : Transition :=
  ⟨t.label.relabel f, names t.target⟩

theorem Transition.move_id (names : Nat → Nat) : move id names = rename names := by
  funext t
  rw [move, Token.relabel_id, rename]

/-- A fragment between two other states. -/
def Fragment.rename (names : Nat → Nat) (f : Fragment) : Fragment :=
  ⟨names f.start, names f.accept⟩

/-- In a list under new names every element keeps its index. -/
theorem idxOf_map_of_injective {names : Nat → Nat} (h : names.Injective) (order : List Nat)
    (id : Nat) : (order.map names).idxOf (names id) = order.idxOf id := by
  induction order with
  | nil => rfl
  | cons first others ih =>
    rw [List.map_cons, List.idxOf_cons, List.idxOf_cons, h.beq_eq, ih]

namespace Graph

/-- A graph stands inside another one under new names, behind the states of `base`.
States that are added to both have matching names. -/
structure Embeds (base : Graph) (names : Nat → Nat) (f : Token → Token) (g g' : Graph) : Prop where
  /-- Different states have different names. -/
  injective : names.Injective
  /-- The name of a state is a state. -/
  names_lt : ∀ id < g.size, names id < g'.size
  /-- States that are added next have matching names. -/
  names_add : ∀ i, names (g.size + i) = g'.size + i
  /-- The steps out of a state are the same under new names and labels. -/
  transitions_eq : ∀ id, g'.transitions (names id) = (g.transitions id).map (.move f names)
  /-- No name is that of a state of `base`. -/
  apart : ∀ id, base.size ≤ names id
  /-- The states of `base` keep their steps. -/
  kept : ∀ id < base.size, g'.transitions id = base.transitions id

/-- What is made in one graph stands inside what is made in the other one. -/
structure Mirrors (base : Graph) (names : Nat → Nat) (f : Token → Token)
    (made made' : Graph × Fragment) : Prop where
  /-- The graphs stand inside each other. -/
  embeds : Embeds base names f made.1 made'.1
  /-- The fragment goes by its new name. -/
  fragment_eq : made'.2 = made.2.rename names

namespace Embeds

variable {base g g' : Graph} {names : Nat → Nat} {f : Token → Token} {order : List Nat}
variable {lower upper inner : Fragment}

/-- The empty graph stands behind every graph. -/
theorem behind (base : Graph) (f : Token → Token) :
    Embeds base (base.size + ·) f empty base where
  injective _ _ h := Nat.add_left_cancel h
  names_lt _ hid := absurd hid (Nat.not_lt_zero _)
  names_add i := by rw [size_empty, Nat.zero_add]
  transitions_eq id := by
    rw [transitions_empty, List.map_nil]
    exact transitions_of_size_le (Nat.le_add_right _ _)
  apart _ := Nat.le_add_right _ _
  kept _ _ := rfl

/-- The empty graph stands inside itself. -/
theorem nothing (f : Token → Token) : Embeds empty id f empty empty where
  injective := Function.injective_id
  names_lt _ hid := hid
  names_add _ := rfl
  transitions_eq _ := rfl
  apart _ := Nat.zero_le _
  kept _ _ := rfl

/-! ## Names -/

theorem names_size (h : Embeds base names f g g') : names g.size = g'.size := h.names_add 0

theorem names_lt_iff (h : Embeds base names f g g') {id : Nat} :
    names id < g'.size ↔ id < g.size := by
  refine ⟨fun hlt => ?_, h.names_lt id⟩
  by_contra hle
  obtain ⟨i, rfl⟩ := Nat.exists_eq_add_of_le (Nat.le_of_not_lt hle)
  rw [h.names_add] at hlt
  exact absurd hlt (by omega)

theorem size_base_le (h : Embeds base names f g g') : base.size ≤ g'.size := by
  rw [← h.names_size]
  exact h.apart g.size

/-- There are at least as many states as names. -/
theorem size_le (h : Embeds base names f g g') : g.size ≤ g'.size := by
  have hcard := Finset.card_le_card_of_injOn (s := Finset.range g.size) (t := Finset.range g'.size)
    names (fun id hid => Finset.mem_range.mpr (h.names_lt id (Finset.mem_range.mp hid)))
    h.injective.injOn
  rwa [Finset.card_range, Finset.card_range] at hcard

/-! ## States and steps -/

theorem grow (h : Embeds base names f g g') : Embeds base names f g.grow g'.grow where
  injective := h.injective
  names_lt id hid := by
    rw [size_grow] at hid ⊢
    rcases Nat.lt_succ_iff_lt_or_eq.mp hid with hold | rfl
    · exact Nat.lt_succ_of_lt (h.names_lt id hold)
    · rw [h.names_size]
      exact Nat.lt_succ_self _
  names_add i := by
    rw [size_grow, size_grow, Nat.add_assoc, Nat.add_assoc, h.names_add]
  transitions_eq id := by
    rw [transitions_grow, transitions_grow, h.transitions_eq]
  apart := h.apart
  kept id hid := by
    rw [transitions_grow, h.kept id hid]

theorem link (h : Embeds base names f g g') (source : Nat) (label : Token) (target : Nat) :
    Embeds base names f (g.link source label target)
      (g'.link (names source) (label.relabel f) (names target)) where
  injective := h.injective
  names_lt id hid := by
    rw [size_link] at hid ⊢
    exact h.names_lt id hid
  names_add i := by
    rw [size_link, size_link, h.names_add]
  transitions_eq id := by
    simp only [transitions_link, h.injective.eq_iff, h.names_lt_iff, h.transitions_eq]
    split
    · rw [List.map_append]
      rfl
    · rfl
  apart := h.apart
  kept id hid := by
    have hne : id ≠ names source := Nat.ne_of_lt (Nat.lt_of_lt_of_le hid (h.apart source))
    rw [transitions_link_of_ne hne, h.kept id hid]

theorem skip (h : Embeds base names f g g') (source target : Nat) :
    Embeds base names f (g.skip source target) (g'.skip (names source) (names target)) :=
  h.link source Token.epsilon target

/-! ## What a state leads to -/

theorem targets_eq (h : Embeds base names f g g') (id : Nat) :
    g'.targets (names id) = (g.targets id).map names := by
  rw [targets, h.transitions_eq, targets, List.map_map, List.map_map]
  rfl

/-- A search finds the same states in the same order. -/
theorem reachable_eq (h : Embeds base names f g g') (root : Nat) :
    g'.reachable (names root) = (g.reachable root).map names := by
  have hrounds : g.reachable root = Search.reach g.targets (g'.size + 1) [root] :=
    (Search.reach_eq_of_le (fun _ => targets_of_size_le) h.size_le [root]).symm
  rw [hrounds, reachable, ← Search.reach_map h.injective h.targets_eq, List.map_singleton]

/-! ## Copies -/

theorem names_renamed (h : Embeds base names f g g') (order : List Nat) (id : Nat) :
    names (g.renamed order id) = g'.renamed (order.map names) (names id) := by
  rw [renamed, renamed, h.names_add, idxOf_map_of_injective h.injective]

theorem copied (h : Embeds base names f g g') (hnodup : order.Nodup) :
    Embeds base names f (g.copied order) (g'.copied (order.map names)) where
  injective := h.injective
  names_lt id hid := by
    rw [size_copied] at hid
    rw [size_copied, List.length_map]
    rcases Nat.lt_or_ge id g.size with hold | hnew
    · exact Nat.lt_add_right _ (h.names_lt id hold)
    · obtain ⟨i, rfl⟩ := Nat.exists_eq_add_of_le hnew
      rw [h.names_add]
      omega
  names_add i := by
    rw [size_copied, size_copied, List.length_map, Nat.add_assoc, Nat.add_assoc, h.names_add]
  transitions_eq id := by
    rcases g.copied_cases hnodup id with hold | ⟨old, hmem, rfl⟩ | hnone
    · rw [transitions_copied_of_lt hold, transitions_copied_of_lt (h.names_lt id hold),
        h.transitions_eq]
    · rw [transitions_copied_renamed hmem, h.names_renamed,
        transitions_copied_renamed (List.mem_map_of_mem hmem), h.transitions_eq, List.map_map,
        List.map_map]
      refine List.map_congr_left fun t _ => ?_
      exact congrArg (Transition.mk _) (h.names_renamed order t.target).symm
    · rw [transitions_of_size_le hnone, List.map_nil]
      obtain ⟨i, rfl⟩ := Nat.exists_eq_add_of_le hnone
      refine transitions_of_size_le ?_
      rw [size_copied, size_copied, List.length_map, Nat.add_assoc, h.names_add]
      omega
  apart := h.apart
  kept id hid := by
    rw [transitions_copied_of_lt (Nat.lt_of_lt_of_le hid h.size_base_le), h.kept id hid]

/-! ## Fragments -/

theorem nextPair_eq (h : Embeds base names f g g') : g'.nextPair = g.nextPair.rename names := by
  rw [nextPair, nextPair, Fragment.rename, h.names_size, h.names_add]

theorem atom (h : Embeds base names f g g') (label : Token) :
    Mirrors base names f (g.atom label) (g'.atom (label.relabel f)) where
  embeds := by
    rw [Graph.atom, Graph.atom, h.nextPair_eq]
    exact h.grow.grow.link _ _ _
  fragment_eq := h.nextPair_eq

theorem concat (h : Embeds base names f g g') (lower upper : Fragment) :
    Mirrors base names f (g.concat lower upper)
      (g'.concat (lower.rename names) (upper.rename names)) where
  embeds := h.skip lower.accept upper.start
  fragment_eq := rfl

theorem union (h : Embeds base names f g g') (lower upper : Fragment) :
    Mirrors base names f (g.union lower upper)
      (g'.union (lower.rename names) (upper.rename names)) where
  embeds := by
    rw [Graph.union, Graph.union, h.nextPair_eq]
    exact (((h.grow.grow.skip _ _).skip _ _).skip _ _).skip _ _
  fragment_eq := h.nextPair_eq

theorem star (h : Embeds base names f g g') (inner : Fragment) :
    Mirrors base names f (g.star inner) (g'.star (inner.rename names)) where
  embeds := by
    rw [Graph.star, Graph.star, h.nextPair_eq]
    exact (((h.grow.grow.skip _ _).skip _ _).skip _ _).skip _ _
  fragment_eq := h.nextPair_eq

theorem question (h : Embeds base names f g g') (inner : Fragment) :
    Mirrors base names f (g.question inner) (g'.question (inner.rename names)) := by
  have hblank : Mirrors base names f g.blank g'.blank := h.atom Token.epsilon
  have hunion := hblank.embeds.union inner g.blank.2
  rw [← hblank.fragment_eq] at hunion
  exact hunion

/-- A fragment that leads to its accept is passed at least once in both graphs. -/
theorem plus (h : Embeds base names f g g') (haccept : inner.accept ∈ g.reachable inner.start) :
    ∃ made made', g.plus inner = some made ∧ g'.plus (inner.rename names) = some made' ∧
      Mirrors base names f made made' := by
  have hreachable : g'.reachable (inner.rename names).start =
      (g.reachable inner.start).map names := h.reachable_eq inner.start
  have haccept' : (inner.rename names).accept ∈ g'.reachable (inner.rename names).start := by
    rw [hreachable]
    exact List.mem_map_of_mem haccept
  have hcopied := h.copied (nodup_reachable g inner.start)
  have hsecond : (⟨g'.size, g'.renamed ((g.reachable inner.start).map names) (names inner.accept)⟩ :
      Fragment) = Fragment.rename names ⟨g.size, g.renamed (g.reachable inner.start) inner.accept⟩ := by
    rw [Fragment.rename, h.names_size, h.names_renamed]
  have hstar := hcopied.star ⟨g.size, g.renamed (g.reachable inner.start) inner.accept⟩
  have hconcat := hstar.embeds.concat inner ((g.copied (g.reachable inner.start)).star
    ⟨g.size, g.renamed (g.reachable inner.start) inner.accept⟩).2
  rw [← hstar.fragment_eq, ← hsecond] at hconcat
  refine ⟨_, _, ?_, ?_, hconcat⟩
  · rw [Graph.plus, copy_eq haccept]
    rfl
  · rw [Graph.plus, copy_eq haccept', hreachable]
    rfl

end Embeds

end Graph

end PatternAutomata
