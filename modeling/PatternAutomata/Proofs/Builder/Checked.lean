import PatternAutomata.Builder.Checked
import PatternAutomata.Proofs.Builder.Ownership
import PatternAutomata.Proofs.Graph.Checked

/-!
# No access is out of range

In every builder that a list of tokens leads to, the ends of the fragments and all that they
lead to are states.  So a token that is taken with all accesses checked never finds an index
without a state, and the same comes out as without the checks (`Builder.take?_of_foldlM`).
-/

namespace PatternAutomata

namespace Graph

variable {g : Graph} {root : Nat}

/-- A search that finds states only takes at most one round for each of them. -/
theorem length_reachable_le (h : ∀ id ∈ g.reachable root, id < g.size) :
    (g.reachable root).length ≤ g.size := by
  have hrange := (g.nodup_reachable root).subperm fun id hid => List.mem_range.mpr (h id hid)
  simpa using hrange.length_le

end Graph

namespace Builder

variable {b : Builder} {t : Token} {rpn : List Token} {rounds : Nat}

theorem Sound.reachable_lt_size (h : b.Sound) {f : Fragment} (hf : f ∈ b.stack) :
    ∀ id ∈ b.graph.reachable f.start, id < b.graph.size := by
  obtain ⟨region, howns⟩ := h.exists_owns hf
  exact fun id hid => howns.lt_size id (howns.mem_iff.mp hid)

/-- An operator on the newest fragment passes all checks if its operation does. -/
theorem unary?_eq {make : Graph → Fragment → Except BuildFault (Graph × Fragment)}
    {make? : Graph → Fragment → Option (Except BuildFault (Graph × Fragment))}
    (h : ∀ inner ∈ b.stack, make? b.graph inner = some (make b.graph inner)) :
    b.unary? t make? = some (b.unary t make) := by
  obtain ⟨g, stack⟩ := b
  cases stack with
  | nil => rfl
  | cons inner rest =>
    have hmake : make? g inner = some (make g inner) := h inner List.mem_cons_self
    exact congrArg (Option.map (Except.map (push rest))) hmake

/-- An operator on the two newest fragments passes all checks if its operation does. -/
theorem binary?_eq {make : Graph → Fragment → Fragment → Graph × Fragment}
    {make? : Graph → Fragment → Fragment → Option (Graph × Fragment)}
    (h : ∀ lower ∈ b.stack, ∀ upper ∈ b.stack,
      make? b.graph lower upper = some (make b.graph lower upper)) :
    b.binary? t make? = some (b.binary t make) := by
  obtain ⟨g, stack⟩ := b
  match stack with
  | [] => rfl
  | [_] => rfl
  | upper :: lower :: rest =>
    have hmake : make? g lower upper = some (make g lower upper) :=
      h lower (List.mem_cons_of_mem _ List.mem_cons_self) upper List.mem_cons_self
    exact congrArg (Option.map fun made => Except.ok (push rest made)) hmake

/-- A sound builder takes every token without an access that is out of range. -/
theorem take?_eq (h : b.Sound) (hrounds : b.graph.size ≤ rounds) (t : Token) :
    b.take? rounds t = some (b.apply t) := by
  have haccept : ∀ f ∈ b.stack, f.accept < b.graph.size := fun f hf => (h.lt_size.1 f hf).2
  unfold take? apply
  cases t.kind with
  | literal | escape =>
    exact congrArg (Option.map fun made => Except.ok (push b.stack made)) (b.graph.atom?_eq t)
  | concat => exact binary?_eq fun lower hlower _ _ => Graph.concat?_eq (haccept lower hlower) _
  | union =>
    exact binary?_eq fun lower hlower upper hupper =>
      Graph.union?_eq (haccept lower hlower) (haccept upper hupper)
  | star =>
    refine unary?_eq fun inner hinner => ?_
    rw [Graph.star?_eq (haccept inner hinner), Option.map_some]
  | question =>
    refine unary?_eq fun inner hinner => ?_
    rw [Graph.question?_eq (haccept inner hinner), Option.map_some]
  | plus =>
    refine unary?_eq fun inner hinner => ?_
    have hlt := h.reachable_lt_size hinner
    have hmade : b.graph.plus? rounds inner = some (b.graph.plus inner) :=
      Graph.plus?_eq hlt ((Graph.length_reachable_le hlt).trans hrounds)
    exact congrArg (Option.map _) hmade
  | openParen | closeParen | epsilon | endMark => rfl

/-- In every builder that a list of tokens leads to, the next token is taken without an access
that is out of range, and the same comes out with and without the checks. -/
theorem take?_of_foldlM (h : rpn.foldlM apply empty = .ok b) (hrounds : b.graph.size ≤ rounds)
    (t : Token) : b.take? rounds t = some (b.apply t) :=
  take?_eq (sound_of_foldlM h) hrounds t

end Builder

end PatternAutomata
