import PatternAutomata.Builder
import PatternAutomata.Expr.Language
import PatternAutomata.Proofs.Graph.Makes

/-!
# The language of an automaton

A builder and an evaluation of expressions take the same tokens and keep stacks of
the same height.  `Stands` says how the two stacks are related.  Every fragment is
a part of the graph that reads the language of the expression at its place, and
no two parts share a state.

A token keeps the relation (`agrees_apply`), so a whole postorder does
(`agrees_foldlM`), and both sides give up at the same token.  In the end an
automaton reads the language of the expression that its postorder spells
(`build_eq_ok`).
-/

namespace PatternAutomata

/-- Every expression stands for a word, so every part can be passed. -/
theorem Expr.exists_mem_language (e : Expr) : ∃ w, w ∈ e.language := by
  induction e with
  | atom t => exact ⟨_, rfl⟩
  | concat op lower upper ihl ihu =>
    obtain ⟨v, hv⟩ := ihl
    obtain ⟨w, hw⟩ := ihu
    exact ⟨v ++ w, Language.append_mem_mul hv hw⟩
  | union op lower upper ihl ihu => exact ihl.imp fun _ => .inl
  | star op inner ih => exact ⟨[], Language.nil_mem_kstar _⟩
  | plus op inner ih =>
    obtain ⟨w, hw⟩ := ih
    exact ⟨w ++ [], Language.append_mem_mul hw (Language.nil_mem_kstar _)⟩
  | question op inner ih => exact ih.imp fun _ => .inl

/-- A step over an operand reads its text. -/
theorem Transition.word_of_isOperand {t : Token} (h : t.kind.isOperand = true) (target : Nat) :
    (⟨t, target⟩ : Transition).word = [t.text] := by
  have heps : (⟨t, target⟩ : Transition).isEpsilon = false := by
    rw [isEpsilon, Token.isEpsilon, beq_eq_false_iff_ne]
    intro hkind
    rw [hkind] at h
    cases h
  rw [word, heps, if_neg Bool.false_ne_true]

/-! ## Two stacks -/

/-- The fragments read what the expressions stand for, and `used` holds the states
they need. -/
inductive Stands (g : Graph) : Set Nat → List Fragment → List Expr → Prop where
  | nil : Stands g ∅ [] []
  | cons {f : Fragment} {e : Expr} {region used : Set Nat} {fs : List Fragment} {es : List Expr}
      (part : Part g f region e.language) (disjoint : Disjoint region used)
      (rest : Stands g used fs es) : Stands g (region ∪ used) (f :: fs) (e :: es)

namespace Stands

variable {g : Graph} {made : Graph × Fragment} {old used : Set Nat} {fs : List Fragment}
variable {es : List Expr} {e : Expr} {L : Language String}

theorem lt_size (h : Stands g used fs es) : ∀ id ∈ used, id < g.size := by
  induction h with
  | nil => exact fun id hid => absurd hid (Set.notMem_empty id)
  | cons part _ _ ih => exact fun id hid => hid.elim (part.lt_size id) (ih id)

theorem length_eq (h : Stands g used fs es) : fs.length = es.length := by
  induction h with
  | nil => rfl
  | cons _ _ _ ih => rw [List.length_cons, List.length_cons, ih]

/-- Stacks are related in the outcome of an operation that uses other states. -/
theorem frame (h : Stands g used fs es) (hmade : g.Makes made old L)
    (hdisjoint : Disjoint old used) : Stands made.1 used fs es := by
  induction h with
  | nil => exact .nil
  | cons part disjoint _ ih =>
    rw [Set.disjoint_union_right] at hdisjoint
    exact .cons (hmade.frame part hdisjoint.1.symm) disjoint (ih hdisjoint.2)

/-- What an operation makes goes on top. -/
theorem push (h : Stands g used fs es) (hmade : g.Makes made old e.language)
    (hdisjoint : Disjoint old used) : ∃ used', Stands made.1 used' (made.2 :: fs) (e :: es) := by
  obtain ⟨region, hpart, hregion⟩ := hmade.region
  have hfresh : Disjoint region used := by
    refine Set.disjoint_left.mpr fun id hid hused => ?_
    rcases hregion id hid with hold | hle
    · exact Set.disjoint_left.mp hdisjoint hold hused
    · exact absurd (h.lt_size id hused) (Nat.not_lt_of_le hle)
  exact ⟨_, .cons hpart hfresh (h.frame hmade hdisjoint)⟩

end Stands

/-! ## A step of both -/

/-- The stack of a builder is related to a stack of expressions. -/
def Builder.Spells (b : Builder) (es : List Expr) : Prop := ∃ used, Stands b.graph used b.stack es

/-- Both give up, or both go on with related stacks. -/
inductive Agrees : Option (List Expr) → Except BuildFault Builder → Prop where
  | goOn {es : List Expr} {b : Builder} (spells : b.Spells es) : Agrees (some es) (.ok b)
  | giveUp (fault : BuildFault) : Agrees none (.error fault)

namespace Builder

variable {b : Builder} {es : List Expr} {t : Token}

theorem spells_empty : empty.Spells [] := ⟨∅, .nil⟩

theorem agrees_operand (h : b.Spells es) (hkind : t.kind.isOperand = true) :
    Agrees (some (.atom t :: es)) (.ok (push b.stack (b.graph.atom t))) := by
  obtain ⟨used, h⟩ := h
  have hmade := b.graph.makes_atom t
  rw [Transition.word_of_isOperand hkind] at hmade
  exact .goOn (h.push hmade (Set.empty_disjoint used))

theorem agrees_unary {make : Graph → Fragment → Except BuildFault (Graph × Fragment)}
    {op : Expr → Expr} (h : b.Spells es)
    (hmake : ∀ {g : Graph} {inner : Fragment} {A : Set Nat} {e : Expr},
      Part g inner A e.language → ∃ made, make g inner = .ok made ∧ g.Makes made A (op e).language)
    (hnil : Expr.apply [] t = none)
    (hcons : ∀ e es, Expr.apply (e :: es) t = some (op e :: es)) :
    Agrees (Expr.apply es t) (b.unary t make) := by
  obtain ⟨g, stack⟩ := b
  obtain ⟨used, h⟩ := h
  change Stands g used stack es at h
  cases h with
  | nil =>
    rw [hnil]
    exact .giveUp _
  | @cons f e region used fs es part disjoint rest =>
    obtain ⟨made, heq, hmade⟩ := hmake part
    rw [hcons]
    change Agrees _ ((make g f).map (push fs))
    rw [heq]
    exact .goOn (rest.push hmade disjoint)

theorem agrees_binary {make : Graph → Fragment → Fragment → Graph × Fragment}
    {op : Expr → Expr → Expr} (h : b.Spells es)
    (hmake : ∀ {g : Graph} {lower upper : Fragment} {A B : Set Nat} {d e : Expr},
      Part g lower A d.language → Part g upper B e.language → Disjoint A B →
        g.Makes (make g lower upper) (A ∪ B) (op d e).language)
    (hnil : Expr.apply [] t = none) (hone : ∀ e, Expr.apply [e] t = none)
    (hcons : ∀ d e es, Expr.apply (e :: d :: es) t = some (op d e :: es)) :
    Agrees (Expr.apply es t) (b.binary t make) := by
  obtain ⟨g, stack⟩ := b
  obtain ⟨used, h⟩ := h
  change Stands g used stack es at h
  cases h with
  | nil =>
    rw [hnil]
    exact .giveUp _
  | cons upper hupper rest =>
    cases rest with
    | nil =>
      rw [hone]
      exact .giveUp _
    | cons lower hlower rest =>
      rw [Set.disjoint_union_right] at hupper
      rw [hcons]
      refine .goOn (rest.push (hmake lower upper hupper.1.symm) ?_)
      exact Set.disjoint_union_left.mpr ⟨hlower, hupper.2⟩

/-- A token keeps the stacks related, or is too much for both. -/
theorem agrees_apply (h : b.Spells es) (t : Token) : Agrees (Expr.apply es t) (b.apply t) := by
  obtain ⟨kind, value, position⟩ := t
  cases kind with
  | literal | escape => exact agrees_operand h rfl
  | concat => exact agrees_binary h Graph.makes_concat rfl (fun _ => rfl) fun _ _ _ => rfl
  | union => exact agrees_binary h Graph.makes_union rfl (fun _ => rfl) fun _ _ _ => rfl
  | star => exact agrees_unary h (fun part => ⟨_, rfl, Graph.makes_star part⟩) rfl fun _ _ => rfl
  | question =>
    exact agrees_unary h (fun part => ⟨_, rfl, Graph.makes_question part⟩) rfl fun _ _ => rfl
  | plus =>
    refine agrees_unary h (fun {g inner A e} part => ?_) rfl fun _ _ => rfl
    obtain ⟨w, hw⟩ := e.exists_mem_language
    obtain ⟨made, heq, hmade⟩ := Graph.makes_plus part hw
    exact ⟨made, by rw [plus, heq], hmade⟩
  | openParen | closeParen | epsilon | endMark => exact .goOn h

/-- A postorder keeps the stacks related, or is too much for both. -/
theorem agrees_foldlM (h : b.Spells es) (rpn : List Token) :
    Agrees (rpn.foldlM Expr.apply es) (rpn.foldlM apply b) := by
  induction rpn generalizing b es with
  | nil => exact .goOn h
  | cons t rpn ih =>
    rw [List.foldlM_cons, List.foldlM_cons]
    have hstep := agrees_apply h t
    generalize Expr.apply es t = taken, b.apply t = result at hstep
    cases hstep with
    | goOn spells => exact ih spells
    | giveUp fault => exact .giveUp fault

/-- A builder holds as many fragments as there are expressions. -/
theorem length_foldlM {rpn : List Token} (h : rpn.foldlM apply empty = .ok b) :
    ∃ es, rpn.foldlM Expr.apply [] = some es ∧ b.stack.length = es.length := by
  have hrun := agrees_foldlM spells_empty rpn
  rw [h] at hrun
  generalize rpn.foldlM Expr.apply [] = taken at hrun
  cases hrun with
  | goOn spells =>
    obtain ⟨used, hstands⟩ := spells
    exact ⟨_, rfl, hstands.length_eq⟩

end Builder

/-! ## The construction -/

variable {rpn : List Token} {flags : Flags} {a : Automaton} {e : Expr}

/-- The outcome of a construction, and what its automaton is made of. -/
theorem build_agrees (rpn : List Token) (flags : Flags) :
    (∃ e a region, Expr.ofRpn? rpn = some e ∧ build rpn flags = .ok a ∧
      Part a.graph ⟨a.start, a.accept⟩ region e.language) ∨
    Expr.ofRpn? rpn = none ∧ ∃ fault, build rpn flags = .error fault := by
  have hrun := Builder.agrees_foldlM Builder.spells_empty rpn
  rw [build_eq, Expr.ofRpn?]
  generalize rpn.foldlM Expr.apply [] = taken, rpn.foldlM Builder.apply .empty = result at hrun
  cases hrun with
  | giveUp fault => exact .inr ⟨rfl, fault, rfl⟩
  | @goOn es b spells =>
    obtain ⟨g, stack⟩ := b
    obtain ⟨used, h⟩ := spells
    change Stands g used stack es at h
    cases h with
    | nil => exact .inr ⟨rfl, _, rfl⟩
    | cons part _ rest =>
      cases rest with
      | nil => exact .inl ⟨_, _, _, rfl, rfl, part⟩
      | cons => exact .inr ⟨rfl, _, rfl⟩

/-- A construction comes out well on the postorder of an expression. -/
theorem exists_build_eq_ok (h : Expr.ofRpn? rpn = some e) (flags : Flags) :
    ∃ a, build rpn flags = .ok a := by
  rcases build_agrees rpn flags with ⟨-, a, -, -, hbuild, -⟩ | ⟨hnone, -⟩
  · exact ⟨a, hbuild⟩
  · rw [h] at hnone
    cases hnone

/-- An automaton comes from a postorder and reads the language of its expression. -/
theorem part_of_build (h : build rpn flags = .ok a) : ∃ e region, Expr.ofRpn? rpn = some e ∧
    Part a.graph ⟨a.start, a.accept⟩ region e.language := by
  rcases build_agrees rpn flags with ⟨e, a', region, hexpr, hbuild, hpart⟩ | ⟨-, fault, hfault⟩
  · rw [h] at hbuild
    cases hbuild
    exact ⟨e, region, hexpr, hpart⟩
  · rw [h] at hfault
    cases hfault

/-- The walks of an automaton through its graph spell exactly the words of the
expression that its postorder spells. -/
theorem walk_iff_mem_language (h : build rpn flags = .ok a) :
    ∃ e, Expr.ofRpn? rpn = some e ∧ ∀ w, Walk a.graph a.start w a.accept ↔ w ∈ e.language := by
  obtain ⟨e, region, hexpr, hpart⟩ := part_of_build h
  exact ⟨e, hexpr, fun _ => hpart.mem_iff.symm⟩

/-- At least one operand without text and then an escape, around a stray token. -/
def textlessPlus : List Token :=
  [⟨.literal, "", 0⟩, ⟨.plus, "+", 1⟩, ⟨.openParen, "(", 2⟩, ⟨.escape, "d1", 3⟩, ⟨.concat, "", 3⟩]

/-- The automaton of `textlessPlus`. -/
def textlessAutomaton : Automaton :=
  ⟨"", Flags.empty, 0, 7, ⟨#[
    ⟨0, [⟨⟨.literal, "", 0⟩, 1⟩]⟩,
    ⟨1, [⟨Token.epsilon, 4⟩]⟩,
    ⟨2, [⟨⟨.literal, "", 0⟩, 3⟩]⟩,
    ⟨3, [⟨Token.epsilon, 2⟩, ⟨Token.epsilon, 5⟩]⟩,
    ⟨4, [⟨Token.epsilon, 2⟩, ⟨Token.epsilon, 5⟩]⟩,
    ⟨5, [⟨Token.epsilon, 6⟩]⟩,
    ⟨6, [⟨⟨.escape, "d1", 3⟩, 7⟩]⟩,
    ⟨7, []⟩]⟩⟩

theorem walk_iff_mem_language_textless :
    build textlessPlus Flags.empty = .ok textlessAutomaton ∧
      ∃ e, Expr.ofRpn? textlessPlus = some e ∧
        ∀ w, Walk textlessAutomaton.graph 0 w 7 ↔ w ∈ e.language :=
  ⟨rfl, walk_iff_mem_language rfl⟩

end PatternAutomata
