import PatternAutomata.Proofs.Rpn.Grouped
import PatternAutomata.Proofs.Scan.Inverse

/-!
# A pattern in a group

A pattern in parentheses is scanned into the tokens of the pattern, one byte further
to the right, between the tokens of the parentheses (`scan_grouped`).  This needs no
second look at the scanner: the tokens in a group can be written if the tokens can,
and each of them stands where the texts before it end.
-/

namespace PatternAutomata

/-- The pattern in parentheses. -/
def grouped (p : String) : String := "(" ++ p ++ ")"

/-- The tokens of a pattern of so many bytes, in parentheses. -/
def enclosed (size : Nat) (ts : List Token) : List Token :=
  ⟨.openParen, "(", 0⟩ :: (ts.map (.shift 1) ++ [⟨.closeParen, ")", size + 1⟩])

variable {p : String} {ts : List Token} {t : Token} {n : Nat}

/-! ## What they write -/

/-- What tokens write does not depend on where they stand. -/
theorem written_shift (n : Nat) (ts : List Token) : written (ts.map (.shift n)) = written ts := by
  refine written_eq_of_content ?_
  rw [List.map_map]
  rfl

theorem written_enclosed (size : Nat) (ts : List Token) :
    written (enclosed size ts) = grouped (written ts) := by
  rw [enclosed, written_cons, written_append_singleton, written_shift, grouped, String.append_assoc]
  rfl

/-! ## Where they stand -/

/-- Behind another token, tokens stand further to the right by its text. -/
theorem Placed.cons (h : Placed ts) (hfirst : t.position = 0) :
    Placed (t :: ts.map (.shift t.text.utf8ByteSize)) := by
  intro before u behind heq
  cases before with
  | nil =>
    obtain ⟨rfl, -⟩ := List.cons.inj heq
    exact hfirst
  | cons first before =>
    obtain ⟨rfl, htail⟩ := List.cons.inj heq
    obtain ⟨ts₁, ts₂, rfl, rfl, hbehind⟩ := List.map_eq_append_iff.mp htail
    obtain ⟨v, vs, rfl, rfl, -⟩ := List.map_eq_cons_iff.mp hbehind
    rw [written_cons, written_shift, String.utf8ByteSize_append, ← h ts₁ v vs rfl]
    exact Nat.add_comm _ _

theorem Placed.enclosed (h : Placed ts) :
    Placed (enclosed (written ts).utf8ByteSize ts) := by
  have hopen : Placed (⟨.openParen, "(", 0⟩ :: ts.map (.shift 1)) := h.cons rfl
  rw [PatternAutomata.enclosed, ← List.cons_append]
  refine placed_append_singleton.mpr ⟨hopen, ?_⟩
  rw [written_cons, written_shift, String.utf8ByteSize_append]
  exact Nat.add_comm _ _

/-! ## That they can be written -/

/-- A chain gets other ends, if what fits the old ends fits the new ones. -/
theorem isChain_newEnds {α : Type} {R : α → α → Prop} {a a' b b' : α} {l : List α}
    (h : (a :: (l ++ [b])).IsChain R) (hne : l ≠ []) (ha : ∀ x, R a x → R a' x)
    (hb : ∀ x, R x b → R x b') : (a' :: (l ++ [b'])).IsChain R := by
  obtain ⟨first, rest, rfl⟩ := List.exists_cons_of_ne_nil hne
  rw [List.cons_append, List.isChain_cons_cons, ← List.cons_append, List.isChain_append] at h ⊢
  obtain ⟨hfirst, hinner, -, hlast⟩ := h
  refine ⟨ha first hfirst, hinner, .singleton b', fun x hx y hy => ?_⟩
  cases hy
  exact hb x (hlast x hx b rfl)

/-- What may stand first in a pattern may stand first in a group. -/
theorem Kind.Fits.openParen {right : Option Kind} (h : Fits none right) :
    Fits (some .openParen) right := by
  refine .of_ne (.inl (by decide)) (by decide) fun hright => ?_
  obtain ⟨k, hk, -⟩ := h.choice_left hright
  cases hk

/-- What may stand last in a pattern may stand last in a group. -/
theorem Kind.Fits.closeParen {left : Option Kind} (h : Fits left none) :
    Fits left (some .closeParen) := by
  refine .of_ne (.inr (by decide)) (fun hleft => ?_) (by decide)
  obtain ⟨k, hk, -⟩ := h.choice_right hleft
  cases hk

theorem Writable.enclosed (h : Writable ts) (size : Nat) : Writable (enclosed size ts) := by
  obtain ⟨hne, hcanon, hfits, hnest⟩ := writable_iff.mp h
  have hkinds : (ts.map (Token.shift 1)).map Token.kind = ts.map Token.kind := by
    rw [List.map_map]
    rfl
  have hsome : (ts.map (Token.shift 1)).map (fun t => some t.kind) =
      ts.map fun t => some t.kind := by
    rw [List.map_map]
    rfl
  rw [PatternAutomata.enclosed]
  refine writable_iff.mpr ⟨List.cons_ne_nil _ _, ?_, ?_, ?_⟩
  · simp only [List.forall_mem_cons, List.forall_mem_append, List.forall_mem_map]
    exact ⟨⟨'(', rfl, rfl⟩, hcanon, ⟨')', rfl, rfl⟩, List.forall_mem_nil _⟩
  · have hinner := isChain_newEnds hfits (by simpa using hne) (fun _ => Kind.Fits.openParen)
      fun _ => Kind.Fits.closeParen
    rw [bordered, List.map_cons, List.map_append, hsome, List.cons_append, List.isChain_cons_cons,
      ← List.cons_append, List.isChain_append]
    have hopen : Kind.Fits none (some .openParen) := by decide
    have hclose : Kind.Fits (some .closeParen) none := by decide
    refine ⟨hopen, hinner, .singleton none, fun left hleft right hright => ?_⟩
    rw [List.map_singleton, ← List.cons_append, List.getLast?_concat] at hleft
    cases hleft
    cases hright
    exact hclose
  · have hopened := nesting_add hnest 1
    rw [List.map_cons, List.map_append, hkinds, nesting_cons]
    change nesting 1 (_ ++ [.closeParen]) = some 0
    rw [nesting_append_singleton, hopened]
    rfl

/-! ## The scan -/

/-- A pattern in parentheses is scanned into its tokens in parentheses. -/
theorem scan_grouped (h : scan p = .ok ts) : ∃ us,
    ts = us ++ [⟨.endMark, "", p.utf8ByteSize⟩] ∧ (∀ t ∈ us, t.kind ≠ .endMark) ∧
      scan (grouped p) = .ok (enclosed p.utf8ByteSize us ++
        [⟨.endMark, "", (grouped p).utf8ByteSize⟩]) := by
  obtain ⟨us, rfl, rfl, hplaced, hwritable⟩ := scan_eq_ok_iff.mp h
  refine ⟨us, rfl, fun t ht => (hwritable.canonical t ht).kind_ne.2, ?_⟩
  exact scan_eq_ok_iff.mpr ⟨_, rfl, written_enclosed _ us, hplaced.enclosed, hwritable.enclosed _⟩

end PatternAutomata
