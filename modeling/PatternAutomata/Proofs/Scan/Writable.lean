import Mathlib.Data.List.Chain
import PatternAutomata.Proofs.Scan.Nesting

/-!
# Tokens that can be written

The texts of tokens, one after the other, are a text again (`written`).  A scan of this
text can only give tokens back whose values it gives to their kinds, whose neighbours
may stand side by side, and whose groups nest.  Such tokens can be written
(`Writable`).

What tokens write depends on their kinds and values only (`written_eq_of_content`).
Where they stand in it is determined (`Placed`), so tokens that stand in their places
are known from their kinds and values (`Placed.eq_of_content`).
-/

namespace PatternAutomata

/-! ## Tokens that can be written -/

/-- The value of a token is one that a scan gives to its kind. -/
def Token.Canonical (t : Token) : Prop :=
  match t.kind with
  | .literal => ∃ c : Char, c.isAlphanum = true ∧ t.value = String.singleton c
  | .escape => t.value ≠ "" ∧ ∀ c ∈ t.value.toList, c.isAlphanum = true
  | kind => ∃ c, kind.sign = some c ∧ t.value = String.singleton c

/-- What a token is, wherever it stands. -/
def Token.content (t : Token) : Kind × String := (t.kind, t.value)

/-- Two kinds may stand side by side.  An edge of the pattern is no kind. -/
structure Kind.Fits (left right : Option Kind) : Prop where
  /-- A literal right behind an escape would belong to its run. -/
  apart : left = some .escape → right ≠ some .literal
  /-- A choice has something on its left. -/
  choice_left : right = some .union → ∃ k, left = some k ∧ k ≠ .union ∧ k ≠ .openParen
  /-- A choice has something on its right. -/
  choice_right : left = some .union → ∃ k, right = some k ∧ k ≠ .closeParen

/-- Kinds may stand side by side where there is neither a choice nor a literal right
behind an escape. -/
theorem Kind.Fits.of_ne {left right : Option Kind}
    (hapart : left ≠ some .escape ∨ right ≠ some .literal) (hleft : left ≠ some .union)
    (hright : right ≠ some .union) : Fits left right where
  apart h := hapart.resolve_left (not_not_intro h)
  choice_left h := absurd h hright
  choice_right h := absurd h hleft

theorem Kind.fits_iff {left right : Option Kind} : Fits left right ↔
    (left = some .escape → right ≠ some .literal) ∧
    (right = some .union → left ≠ none ∧ left ≠ some .union ∧ left ≠ some .openParen) ∧
    (left = some .union → right ≠ none ∧ right ≠ some .closeParen) := by
  constructor
  · rintro ⟨hapart, hleft, hright⟩
    refine ⟨hapart, fun heq => ?_, fun heq => ?_⟩
    · obtain ⟨k, rfl, hk⟩ := hleft heq
      simpa using hk
    · obtain ⟨k, rfl, hk⟩ := hright heq
      simpa using hk
  · rintro ⟨hapart, hleft, hright⟩
    refine ⟨hapart, fun heq => ?_, fun heq => ?_⟩
    · obtain ⟨hsome, hk⟩ := hleft heq
      obtain ⟨k, rfl⟩ := Option.ne_none_iff_exists'.mp hsome
      exact ⟨k, rfl, by simpa using hk⟩
    · obtain ⟨hsome, hk⟩ := hright heq
      obtain ⟨k, rfl⟩ := Option.ne_none_iff_exists'.mp hsome
      exact ⟨k, rfl, by simpa using hk⟩

instance (left right : Option Kind) : Decidable (Kind.Fits left right) :=
  decidable_of_iff _ Kind.fits_iff.symm

/-- The kinds of tokens between the edges of a pattern. -/
def bordered (ts : List Token) : List (Option Kind) :=
  none :: ((ts.map fun t => some t.kind) ++ [none])

/-- The tokens can be written so that a scan gives them back. -/
structure Writable (ts : List Token) : Prop where
  /-- There is something to write. -/
  ne_nil : ts ≠ []
  /-- Every value is one that a scan gives. -/
  canonical : ∀ t ∈ ts, t.Canonical
  /-- Neighbours may stand side by side. -/
  fits : (bordered ts).IsChain Kind.Fits
  /-- No group is closed before it is opened. -/
  close_le : ∀ kinds, kinds <+: ts.map Token.kind → kinds.count .closeParen ≤ kinds.count .openParen
  /-- Every group is closed. -/
  close_eq : (ts.map Token.kind).count .closeParen = (ts.map Token.kind).count .openParen

/-- The texts of tokens, one after the other. -/
def written (ts : List Token) : String := String.join (ts.map Token.text)

/-- Every token stands where the texts before it end. -/
def Placed (ts : List Token) : Prop :=
  ∀ before t behind, ts = before ++ t :: behind → t.position = (written before).utf8ByteSize

/-! ## Texts -/

variable {p : String} {ts us : List Token} {t : Token}

theorem toList_written (ts : List Token) : (written ts).toList = spelling ts := by
  rw [written, String.toList_join, List.flatMap_map, spelling]

theorem written_cons (t : Token) (ts : List Token) : written (t :: ts) = t.text ++ written ts := by
  rw [← String.toList_inj]
  simp [toList_written]

theorem written_append (ts us : List Token) : written (ts ++ us) = written ts ++ written us := by
  rw [← String.toList_inj]
  simp [toList_written]

theorem written_append_singleton (ts : List Token) (t : Token) :
    written (ts ++ [t]) = written ts ++ t.text := by
  rw [← String.toList_inj]
  simp [toList_written]

theorem text_escape (run : String) (position : Nat) :
    (Token.mk .escape run position).text.toList = '\\' :: run.toList := by
  simp [Token.text]

/-- A value is one that a scan gives if and only if the text is one that the kind is cut
from. -/
theorem Token.canonical_iff_isLexeme : t.Canonical ↔ t.IsLexeme := by
  obtain ⟨kind, value, position⟩ := t
  cases kind with
  | literal =>
    simp only [Canonical, IsLexeme, text, ← String.toList_inj, String.toList_singleton]
    constructor
    · rintro ⟨c, hc, heq⟩
      rw [heq]
      exact .literal hc
    · intro h
      generalize value.toList = cs at h
      cases h with
      | literal hc => exact ⟨_, hc, rfl⟩
      | sign h => cases h
  | escape =>
    simp only [Canonical, IsLexeme, text_escape, ← String.toList_inj, ne_eq]
    constructor
    · rintro ⟨hne, hrun⟩
      obtain ⟨c, run, heq⟩ := List.exists_cons_of_ne_nil hne
      rw [heq] at hrun ⊢
      exact .escape hrun
    · intro h
      generalize heq : '\\' :: value.toList = cs at h
      cases h with
      | escape hrun =>
        rw [(List.cons.inj heq).2]
        exact ⟨List.cons_ne_nil _ _, hrun⟩
      | sign h => cases h
  | star | plus | question | openParen | closeParen | union =>
    simp only [Canonical, IsLexeme, text, ← String.toList_inj, String.toList_singleton]
    constructor
    · rintro ⟨c, hc, heq⟩
      rw [heq]
      exact .sign hc
    · intro h
      generalize value.toList = cs at h
      cases h with
      | sign h => exact ⟨_, h, rfl⟩
  | concat | epsilon | endMark =>
    simp only [Canonical, IsLexeme, Kind.sign, reduceCtorEq, false_and, exists_false, false_iff]
    intro h
    generalize String.toList _ = cs at h
    cases h with
    | sign h => cases h

/-- What a token is can be told from its text. -/
theorem Token.Canonical.content_eq {u : Token} (ht : t.Canonical) (hu : u.Canonical)
    (h : t.text = u.text) : t.content = u.content := by
  rw [canonical_iff_isLexeme, IsLexeme] at ht hu
  rw [← h] at hu
  have hkind := ht.kind_unique hu
  obtain ⟨kind, value, position⟩ := t
  obtain ⟨kind', value', position'⟩ := u
  obtain rfl : kind = kind' := hkind
  cases kind with
  | escape =>
    rw [← String.toList_inj, text_escape, text_escape, List.cons.injEq, String.toList_inj] at h
    exact congrArg (Prod.mk _) h.2
  | concat | epsilon | endMark =>
    generalize String.toList _ = cs at ht
    cases ht with
    | sign hsign => cases hsign
  | _ => exact congrArg (Prod.mk _) h

theorem Token.Canonical.text_ne_nil (h : t.Canonical) : t.text.toList ≠ [] := by
  rw [canonical_iff_isLexeme, IsLexeme] at h
  generalize t.kind = kind, t.text.toList = cs at h
  cases h <;> exact List.cons_ne_nil _ _

/-- Only the text of a closing parenthesis starts with one. -/
theorem Token.Canonical.exists_cons (h : t.Canonical) (hkind : t.kind ≠ .closeParen) :
    ∃ c cs, t.text.toList = c :: cs ∧ c ≠ ')' := by
  rw [canonical_iff_isLexeme, IsLexeme] at h
  generalize t.kind = kind, t.text.toList = cs at h hkind
  cases h with
  | @literal c hc =>
    refine ⟨c, [], rfl, ?_⟩
    rintro rfl
    cases hc
  | escape => exact ⟨_, _, rfl, by decide⟩
  | @sign _ c hsign =>
    refine ⟨c, [], rfl, ?_⟩
    rintro rfl
    cases kind <;> cases hsign
    exact hkind rfl

theorem placed_append_singleton :
    Placed (ts ++ [t]) ↔ Placed ts ∧ t.position = (written ts).utf8ByteSize := by
  constructor
  · intro h
    refine ⟨fun before u behind heq => ?_, h ts t [] rfl⟩
    refine h before u (behind ++ [t]) ?_
    rw [heq, List.append_assoc, List.cons_append]
  · rintro ⟨hts, ht⟩ before u behind heq
    rcases List.eq_nil_or_concat behind with rfl | ⟨tail, last, rfl⟩
    · obtain ⟨rfl, hlast⟩ := List.append_inj' heq rfl
      cases hlast
      exact ht
    · rw [List.concat_eq_append, ← List.cons_append, ← List.append_assoc] at heq
      exact hts before u tail (List.append_inj' heq rfl).1

/-! ## What tokens are -/

/-- What tokens write is known from what they are. -/
theorem written_eq_of_content (h : us.map Token.content = ts.map Token.content) :
    written us = written ts := by
  have htext : Token.text = (fun p : Kind × String => (Token.mk p.1 p.2 0).text) ∘ Token.content :=
    rfl
  rw [written, written, htext, ← List.map_map, h, List.map_map]

/-- Tokens are known from what they are, if they stand where the texts before them
end. -/
theorem Placed.eq_of_content (hus : Placed us) (hts : Placed ts)
    (h : us.map Token.content = ts.map Token.content) : us = ts := by
  induction ts using List.reverseRecOn generalizing us with
  | nil => exact List.map_eq_nil_iff.mp h
  | append_singleton ts t ih =>
    rw [List.map_append] at h
    obtain ⟨vs, last, rfl, hvs, hlast⟩ := List.map_eq_append_iff.mp h
    obtain ⟨u, hu, heq⟩ := List.map_eq_singleton_iff.mp hlast
    subst hu
    rw [placed_append_singleton] at hus hts
    obtain rfl := ih hus.1 hts.1 hvs
    obtain ⟨kind, value, position⟩ := t
    obtain ⟨kind', value', position'⟩ := u
    cases heq
    rw [show position' = position from hus.2.trans hts.2.symm]

theorem Token.Canonical.kind_ne (h : t.Canonical) : t.kind ≠ .epsilon ∧ t.kind ≠ .endMark := by
  obtain ⟨kind, value, position⟩ := t
  cases kind with
  | epsilon | endMark =>
    obtain ⟨c, hsign, -⟩ := h
    cases hsign
  | _ => exact ⟨nofun, nofun⟩

theorem writable_iff : Writable ts ↔ ts ≠ [] ∧ (∀ t ∈ ts, t.Canonical) ∧
    (bordered ts).IsChain Kind.Fits ∧ nesting 0 (ts.map Token.kind) = some 0 := by
  rw [nesting_eq_some_iff]
  simp only [Nat.zero_add]
  constructor
  · rintro ⟨hne, hcanon, hfits, hle, heq⟩
    refine ⟨hne, hcanon, hfits, fun k hk => ?_, hle, heq⟩
    obtain ⟨t, ht, rfl⟩ := List.mem_map.mp hk
    exact (hcanon t ht).kind_ne
  · rintro ⟨hne, hcanon, hfits, -, hle, heq⟩
    exact ⟨hne, hcanon, hfits, hle, heq⟩

end PatternAutomata
