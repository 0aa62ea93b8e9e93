import PatternAutomata.Pattern
import PatternAutomata.Proofs.Rpn.Steps
import PatternAutomata.Proofs.Scan.Feed

/-!
# Tokens spell their pattern

The tokens of a scan, put one after the other, spell the pattern again, and each of
them is spelled as its kind demands (`scan_eq_ok`).  While a scan goes on, this is
true of all tokens but the newest, which may be an escape without a run.  Then the
run starts with the next character (`Tidy`).

A derivation from such tokens is a derivation of what they spell
(`Derives.pattern`), so a text is a pattern if its tokens derive an expression.
-/

namespace PatternAutomata

/-- The characters that a token of a kind is cut from. -/
inductive Lexeme : Kind → List Char → Prop where
  | literal {c : Char} (h : c.isAlphanum = true) : Lexeme .literal [c]
  | escape {c : Char} {run : List Char} (h : ∀ d ∈ c :: run, d.isAlphanum = true) :
      Lexeme .escape ('\\' :: c :: run)
  | sign {kind : Kind} {c : Char} (h : kind.sign = some c) : Lexeme kind [c]

/-- Characters are cut from one kind only. -/
theorem Lexeme.kind_unique {kind kind' : Kind} {cs : List Char} (h : Lexeme kind cs)
    (h' : Lexeme kind' cs) : kind = kind' := by
  cases h with
  | literal hc =>
    cases h' with
    | literal => rfl
    | sign hsign =>
      rw [Kind.isAlphanum_of_sign hsign] at hc
      cases hc
  | escape =>
    cases h' with
    | escape => rfl
  | sign hsign =>
    cases h' with
    | literal hc =>
      rw [Kind.isAlphanum_of_sign hsign] at hc
      cases hc
    | sign hsign' => exact Kind.sign_inj hsign hsign'

/-- The text of a token is one that its kind is cut from. -/
def Token.IsLexeme (t : Token) : Prop := Lexeme t.kind t.text.toList

/-- The texts of tokens, one after the other. -/
def spelling (ts : List Token) : List Char := ts.flatMap fun t => t.text.toList

@[simp] theorem spelling_nil : spelling [] = [] := rfl

@[simp] theorem spelling_cons (t : Token) (ts : List Token) :
    spelling (t :: ts) = t.text.toList ++ spelling ts := rfl

@[simp] theorem spelling_append (ts us : List Token) :
    spelling (ts ++ us) = spelling ts ++ spelling us := List.flatMap_append

namespace Token

variable {t : Token} {kind : Kind} {c : Char}

theorem IsLexeme.text_eq_of_sign (h : t.IsLexeme) (hkind : t.kind = kind)
    (hsign : kind.sign = some c) : t.text.toList = [c] := by
  rw [IsLexeme, hkind] at h
  generalize t.text.toList = cs at h
  cases h with
  | literal | escape => cases hsign
  | sign h =>
    rw [h] at hsign
    injection hsign with hsign
    rw [hsign]

theorem IsLexeme.kind_ne (h : t.IsLexeme) : t.kind ≠ .concat ∧ t.kind ≠ .endMark := by
  unfold IsLexeme at h
  generalize t.kind = k, t.text.toList = cs at h
  cases h with
  | literal | escape => simp
  | sign h => constructor <;> rintro rfl <;> cases h

end Token

/-! ## Derivations -/

/-- Behind other lexemes, a token of a sign adds this sign. -/
theorem spelling_append_sign {ts : List Token} {t : Token} {kind : Kind} {c : Char}
    (h : ∀ u ∈ ts ++ [t], u.IsLexeme) (hkind : t.kind = kind) (hsign : kind.sign = some c) :
    (∀ u ∈ ts, u.IsLexeme) ∧ spelling (ts ++ [t]) = spelling ts ++ [c] := by
  rw [List.forall_mem_append, List.forall_mem_singleton] at h
  refine ⟨h.1, ?_⟩
  rw [spelling_append, spelling_cons, spelling_nil, List.append_nil,
    h.2.text_eq_of_sign hkind hsign]

/-- What tokens derive, their texts derive. -/
theorem Derives.pattern {rank : Rank} {ts : List Token} {e : Expr} (h : Derives rank ts e)
    (hlexemes : ∀ t ∈ ts, t.IsLexeme) : Pattern rank (spelling ts) := by
  induction h with
  | @operand t kind =>
    have hlexeme := hlexemes t (List.mem_singleton_self t)
    rw [spelling_cons, spelling_nil, List.append_nil]
    unfold Token.IsLexeme at hlexeme
    generalize t.kind = k, t.text.toList = cs at kind hlexeme
    cases hlexeme with
    | literal h => exact .letter h
    | escape h => exact .escape h
    | sign h => cases k <;> cases kind <;> cases h
  | group hopening _ hclosing ih =>
    obtain ⟨hopen, hlexemes⟩ := List.forall_mem_cons.mp hlexemes
    obtain ⟨hlexemes, hspelling⟩ := spelling_append_sign hlexemes hclosing rfl
    rw [spelling_cons, hopen.text_eq_of_sign hopening rfl, hspelling]
    exact .group (ih hlexemes)
  | ofUnit _ ih => exact .ofUnit (ih hlexemes)
  | star _ kind ih =>
    obtain ⟨hlexemes, hspelling⟩ := spelling_append_sign hlexemes kind rfl
    rw [hspelling]
    exact .star (ih hlexemes)
  | plus _ kind ih =>
    obtain ⟨hlexemes, hspelling⟩ := spelling_append_sign hlexemes kind rfl
    rw [hspelling]
    exact .plus (ih hlexemes)
  | question _ kind ih =>
    obtain ⟨hlexemes, hspelling⟩ := spelling_append_sign hlexemes kind rfl
    rw [hspelling]
    exact .question (ih hlexemes)
  | ofFactor _ ih => exact .ofFactor (ih hlexemes)
  | juxtapose _ _ ihl ihu =>
    rw [List.forall_mem_append] at hlexemes
    rw [spelling_append]
    exact .juxtapose (ihl hlexemes.1) (ihu hlexemes.2)
  | concat _ kind _ =>
    rw [List.forall_mem_append, List.forall_mem_cons] at hlexemes
    exact absurd kind hlexemes.2.1.kind_ne.1
  | ofSequence _ ih => exact .ofSequence (ih hlexemes)
  | union _ kind _ ihl ihu =>
    rw [List.forall_mem_append, List.forall_mem_cons] at hlexemes
    obtain ⟨hl, hbar, hu⟩ := hlexemes
    rw [spelling_append, spelling_cons, hbar.text_eq_of_sign kind rfl]
    exact .union (ihl hl) (ihu hu)

/-! ## A scan -/

/-- The tokens, newest first, are as their kinds demand, except that the newest may
be an escape whose run is still to come. -/
inductive Tidy (next : Option Char) : List Token → Prop where
  | complete {ts : List Token} (h : ∀ t ∈ ts, t.IsLexeme) : Tidy next ts
  | pending {ts : List Token} {c : Char} (position : Nat) (hnext : next = some c)
      (hc : c.isAlphanum = true) (h : ∀ t ∈ ts, t.IsLexeme) :
      Tidy next (Token.bare .escape position :: ts)

/-- In front of anything but an alphanumeric character no run is still to come. -/
theorem Tidy.isLexeme {next : Option Char} {ts : List Token} (h : Tidy next ts)
    (hnext : ∀ c, next = some c → c.isAlphanum = false) : ∀ t ∈ ts, t.IsLexeme := by
  cases h with
  | complete h => exact h
  | pending position heq hc =>
    rw [hnext _ heq] at hc
    cases hc

theorem text_literal (c : Char) (position : Nat) :
    (Token.ofChar .literal c position).text.toList = [c] := String.toList_singleton c

theorem text_sign {kind : Kind} {c : Char} (h : kind.sign = some c) (position : Nat) :
    (Token.ofChar kind c position).text.toList = [c] := by
  cases kind with
  | literal | concat | escape | epsilon | endMark => cases h
  | _ => exact String.toList_singleton c

theorem text_backslash (position : Nat) : (Token.bare .escape position).text.toList = ['\\'] := by
  simp [Token.text, Token.bare]

/-- The text of an escape grows with its run. -/
theorem text_push (run : String) (c : Char) (position : Nat) :
    (Token.mk .escape (run.push c) position).text.toList =
      (Token.mk .escape run position).text.toList ++ [c] := by
  simp [Token.text]

theorem isLexeme_push {run : String} {c : Char} {position : Nat} (hc : c.isAlphanum = true)
    (h : Token.IsLexeme ⟨.escape, run, position⟩ ∨ run = "") :
    Token.IsLexeme ⟨.escape, run.push c, position⟩ := by
  rw [Token.IsLexeme, text_push]
  rcases h with h | rfl
  · rw [Token.IsLexeme] at h
    generalize (Token.mk .escape run position).text.toList = cs at h
    cases h with
    | escape h =>
      refine .escape fun d hd => ?_
      rw [List.append_eq, ← List.cons_append] at hd
      rcases List.mem_append.mp hd with hd | hd
      · exact h d hd
      · rwa [List.mem_singleton.mp hd]
    | sign h => cases h
  · have htext := text_backslash position
    rw [Token.bare] at htext
    rw [htext]
    exact .escape (List.forall_mem_singleton.mpr hc)

namespace Scanner

variable {s s' : Scanner} {t : Token} {c : Char} {next : Option Char} {cs : List Char}

/-- What has been read, as the tokens spell it. -/
def spelled (s : Scanner) : List Char := spelling s.tokens.reverse

theorem spelled_eq {older : List Token} (h : s.tokens = t :: older) :
    s.spelled = spelling older.reverse ++ t.text.toList := by
  simp [spelled, h]

theorem tidy_pushAlphanum (h : Tidy (some c) s.tokens) (hc : c.isAlphanum = true) :
    Tidy next (s.pushAlphanum c).tokens ∧ (s.pushAlphanum c).spelled = s.spelled ++ [c] := by
  by_cases hrun : s.InRun
  · obtain ⟨run, position, older, heq⟩ := hrun
    have hpush : (s.pushAlphanum c).tokens = ⟨.escape, run.push c, position⟩ :: older := by
      simp [pushAlphanum, heq]
    rw [spelled_eq hpush, spelled_eq heq, hpush, text_push, List.append_assoc]
    refine ⟨.complete (List.forall_mem_cons.mpr ?_), rfl⟩
    rw [heq] at h
    cases h with
    | complete h =>
      rw [List.forall_mem_cons] at h
      exact ⟨isLexeme_push hc (.inl h.1), h.2⟩
    | pending _ _ _ h => exact ⟨isLexeme_push hc (.inr rfl), h⟩
  · rw [pushAlphanum_of_not_inRun hrun]
    have htext := text_literal c s.position
    refine ⟨.complete (List.forall_mem_cons.mpr ⟨?_, ?_⟩), ?_⟩
    · rw [Token.IsLexeme, htext]
      exact .literal hc
    · generalize htokens : s.tokens = tokens at h
      cases h with
      | complete h => exact h
      | pending position => exact absurd ⟨"", position, _, htokens⟩ hrun
    · rw [← htext]
      exact spelled_eq rfl

/-- A character keeps the tokens tidy and is spelled. -/
theorem tidy_feed (h : Tidy (some c) s.tokens) (hfeed : s.feed c next = .ok s') :
    Tidy next s'.tokens ∧ s'.spelled = s.spelled ++ [c] := by
  -- A run that is still to come would need an alphanumeric character here.
  have hsign : c.isAlphanum = false → ∀ t ∈ s.tokens, t.IsLexeme := by
    intro hc
    refine h.isLexeme fun d hd => ?_
    injection hd with hd
    rwa [← hd]
  rcases feed_eq_ok hfeed with ⟨hc, rfl⟩ | ⟨kind, hkind, -, rfl⟩ | ⟨rfl, ⟨d, hd, halnum⟩, rfl⟩
  · exact tidy_pushAlphanum h hc
  · have htext := text_sign hkind s.position
    refine ⟨.complete (List.forall_mem_cons.mpr ⟨?_, hsign (kind.isAlphanum_of_sign hkind)⟩), ?_⟩
    · rw [Token.IsLexeme, htext]
      exact .sign hkind
    · rw [← htext]
      exact spelled_eq rfl
  · refine ⟨.pending s.position hd halnum (hsign rfl), ?_⟩
    rw [← text_backslash s.position]
    exact spelled_eq rfl

theorem tidy_feedAll (h : Tidy cs.head? s.tokens) (hfeed : s.feedAll cs = .ok s') :
    Tidy none s'.tokens ∧ s'.spelled = s.spelled ++ cs := by
  induction cs generalizing s with
  | nil =>
    cases hfeed
    exact ⟨h, (List.append_nil _).symm⟩
  | cons c cs ih =>
    rw [feedAll_cons, bind_eq_ok_iff] at hfeed
    obtain ⟨s₁, hfirst, hrest⟩ := hfeed
    obtain ⟨htidy, hspelled⟩ := tidy_feed h hfirst
    obtain ⟨hend, hall⟩ := ih htidy hrest
    refine ⟨hend, ?_⟩
    rw [hall, hspelled, List.append_assoc, List.singleton_append]

end Scanner

/-- A scan takes all of a pattern that is not empty, and closes all groups. -/
theorem scan_run {p : String} {ts : List Token} (h : scan p = .ok ts) :
    ∃ s, p.toList ≠ [] ∧ Scanner.start.feedAll p.toList = .ok s ∧ s.opened = 0 ∧
      ts = s.tokens.reverse ++ [Token.bare .endMark s.position] := by
  unfold scan at h
  split at h
  · cases h
  · next hne =>
    obtain ⟨s, hfeed, hfinish⟩ := bind_eq_ok_iff.mp h
    unfold Scanner.finish at hfinish
    split at hfinish
    · next hopened =>
      injection hfinish with hfinish
      rw [List.reverse_cons] at hfinish
      exact ⟨s, hne, hfeed, hopened, hfinish.symm⟩
    · cases hfinish

/-- A scan gives tokens that spell the pattern, and the mark of the end. -/
theorem scan_eq_ok {p : String} {ts : List Token} (h : scan p = .ok ts) :
    ∃ us position, ts = us ++ [Token.bare .endMark position] ∧ (∀ t ∈ us, t.IsLexeme) ∧
      spelling us = p.toList := by
  obtain ⟨s, -, hfeed, -, rfl⟩ := scan_run h
  obtain ⟨htidy, hspelled⟩ := Scanner.tidy_feedAll (.complete (List.forall_mem_nil _)) hfeed
  refine ⟨_, _, rfl, fun t ht => ?_, hspelled⟩
  exact htidy.isLexeme nofun t (List.mem_reverse.mp ht)

/-- The body of a scan is all but the mark of the end. -/
theorem body_append_endMark {ts : List Token} (h : ∀ t ∈ ts, t.IsLexeme) (position : Nat) :
    Rpn.body (ts ++ [Token.bare .endMark position]) = ts :=
  Rpn.body_append (fun t ht => (h t ht).kind_ne.2) rfl

/-- A text is a pattern if its tokens derive an expression. -/
theorem pattern_of_scan {p : String} {ts : List Token} {e : Expr} (hscan : scan p = .ok ts)
    (h : Derives .choice (Rpn.body ts) e) : Pattern .choice p.toList := by
  obtain ⟨us, position, rfl, hlexemes, hspelled⟩ := scan_eq_ok hscan
  rw [body_append_endMark hlexemes] at h
  rw [← hspelled]
  exact h.pattern hlexemes

end PatternAutomata
