import Mathlib.Tactic.Ring
import PatternAutomata.Expr.Basic

/-!
# What a postorder spells

An evaluation puts tokens together and loses none of them.  So a list of tokens that spells
an expression is the postorder of that expression, with kinds in between that postorder has
no place for (`Expr.postorder_of_ofRpn?`).

The operands of an expression are those of its postorder (`Expr.map_fst_occurrences`).  An
operand is read twice as often for each `plus` node that it stands below
(`Expr.labels_perm`).
-/

namespace PatternAutomata.Expr

variable {e : Expr} {stack stack' : List Expr} {t : Token} {rpn : List Token}

/-! ## Tokens on a stack -/

/-- The tokens of the expressions on a stack, oldest first. -/
def unstack (stack : List Expr) : List Token := stack.reverse.flatMap postorder

@[simp] theorem unstack_nil : unstack [] = [] := rfl

@[simp] theorem unstack_cons (e : Expr) (stack : List Expr) :
    unstack (e :: stack) = unstack stack ++ e.postorder := by
  simp [unstack]

/-- A token goes behind all others, or is passed over. -/
theorem unstack_apply (h : apply stack t = some stack') :
    unstack stack' = unstack stack ++ if t.kind.isStray then [] else [t] := by
  obtain ⟨kind, value, position⟩ := t
  cases kind with
  | literal | escape =>
    cases h
    simp [postorder, Kind.isStray]
  | star | plus | question =>
    cases stack with
    | nil => cases h
    | cons inner rest =>
      cases h
      simp [postorder, Kind.isStray]
  | union | concat =>
    cases stack with
    | nil => cases h
    | cons upper others =>
      cases others with
      | nil => cases h
      | cons lower rest =>
        cases h
        simp [postorder, Kind.isStray]
  | openParen | closeParen | epsilon | endMark =>
    cases h
    simp [Kind.isStray]

/-- A token makes a node of its kind. -/
theorem kinded_apply (h : apply stack t = some stack') (hstack : ∀ e ∈ stack, e.Kinded) :
    ∀ e ∈ stack', e.Kinded := by
  obtain ⟨kind, value, position⟩ := t
  cases kind with
  | literal | escape =>
    cases h
    exact List.forall_mem_cons.mpr ⟨rfl, hstack⟩
  | star | plus | question =>
    cases stack with
    | nil => cases h
    | cons inner rest =>
      cases h
      rw [List.forall_mem_cons] at hstack
      exact List.forall_mem_cons.mpr ⟨⟨rfl, hstack.1⟩, hstack.2⟩
  | union | concat =>
    cases stack with
    | nil => cases h
    | cons upper others =>
      cases others with
      | nil => cases h
      | cons lower rest =>
        cases h
        rw [List.forall_mem_cons, List.forall_mem_cons] at hstack
        exact List.forall_mem_cons.mpr ⟨⟨rfl, hstack.2.1, hstack.1⟩, hstack.2.2⟩
  | openParen | closeParen | epsilon | endMark =>
    cases h
    exact hstack

/-- A run leaves all tokens on the stack that it does not pass over. -/
theorem unstack_foldlM (h : rpn.foldlM apply stack = some stack')
    (hstack : ∀ e ∈ stack, e.Kinded) :
    unstack stack' = unstack stack ++ rpn.filter (!·.kind.isStray) ∧ ∀ e ∈ stack', e.Kinded := by
  induction rpn generalizing stack with
  | nil =>
    cases h
    exact ⟨(List.append_nil _).symm, hstack⟩
  | cons t rpn ih =>
    rw [List.foldlM_cons, Option.bind_eq_bind, Option.bind_eq_some_iff] at h
    obtain ⟨next, hstep, hrest⟩ := h
    obtain ⟨hall, hkinded⟩ := ih hrest (kinded_apply hstep hstack)
    refine ⟨?_, hkinded⟩
    rw [hall, unstack_apply hstep]
    cases hstray : t.kind.isStray <;> simp [hstray]

/-- Tokens that spell an expression are its postorder, and kinds that are passed over. -/
theorem postorder_of_ofRpn? (h : ofRpn? rpn = some e) :
    e.postorder = rpn.filter (!·.kind.isStray) ∧ e.Kinded := by
  unfold ofRpn? at h
  split at h
  · next d hrun =>
    cases h
    obtain ⟨hall, hkinded⟩ := unstack_foldlM hrun (List.forall_mem_nil _)
    exact ⟨by simpa using hall, hkinded e List.mem_cons_self⟩
  · cases h

/-! ## Operands -/

/-- The operands of an expression are the operands of its postorder, in their order. -/
theorem map_fst_occurrences (h : e.Kinded) (above : Nat) :
    (e.occurrences above).map Prod.fst = e.postorder.filter (·.kind.isOperand) := by
  induction e generalizing above with
  | atom t =>
    have hoperand : t.kind.isOperand = true := h
    simp [occurrences, postorder, hoperand]
  | concat op lower upper ihl ihu | union op lower upper ihl ihu =>
    obtain ⟨hop, hl, hu⟩ := h
    simp [occurrences, postorder, ihl hl, ihu hu, hop, Kind.isOperand]
  | star op inner ih | plus op inner ih | question op inner ih =>
    obtain ⟨hop, hi⟩ := h
    simp [occurrences, postorder, ih hi, hop, Kind.isOperand]

/-- An expression reads an occurrence twice as often for each `plus` node above it. -/
theorem count_occurrences (e : Expr) (above : Nat) (t : Token) :
    ((e.occurrences above).flatMap fun o => List.replicate (2 ^ o.2) o.1).count t =
      2 ^ above * e.labels.count t := by
  induction e generalizing above with
  | atom u => simp [occurrences, labels, List.count_replicate, List.count_singleton]
  | concat op lower upper ihl ihu | union op lower upper ihl ihu =>
    simp only [occurrences, labels, List.flatMap_append, List.count_append, ihl, ihu, Nat.mul_add]
  | star op inner ih | question op inner ih => exact ih above
  | plus op inner ih =>
    rw [occurrences, ih, labels, List.count_append, Nat.pow_succ]
    ring

/-- An expression reads exactly its operands, each of them twice as often for each `plus`
node that it stands below. -/
theorem labels_perm (e : Expr) :
    e.labels.Perm ((e.occurrences 0).flatMap fun o => List.replicate (2 ^ o.2) o.1) := by
  rw [List.perm_iff_count]
  intro t
  rw [count_occurrences, Nat.pow_zero, Nat.one_mul]

/-- What an expression reads are its operands. -/
theorem mem_labels_iff : t ∈ e.labels ↔ t ∈ (e.occurrences 0).map Prod.fst := by
  rw [e.labels_perm.mem_iff]
  simp

end PatternAutomata.Expr
