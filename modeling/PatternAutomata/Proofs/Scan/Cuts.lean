import PatternAutomata.Expr.Language
import PatternAutomata.Proofs.Pattern.Denotes
import PatternAutomata.Proofs.Rpn.Postorder
import PatternAutomata.Proofs.Scan.Spelling

/-!
# How a pattern is cut into tokens

A text that denotes a language is scanned without a fault, wherever it stands, and
its tokens derive an expression of that language (`Denotes.cuts`).  So a pattern has
one language (`denotes_unique`), since it has one list of tokens and tokens derive
one expression.

`Takes` says that a scanner gets through a text whatever follows.  It fails for a
text that ends in `|` or in a backslash, but no part of a pattern does.  `Cuts` says
which tokens the text is cut into.  The scanner is ready for a text unless the text
would make the run of an escape longer, and it is in the run of an escape behind a
text only if the text ends in one.  This is what keeps neighbours apart.
-/

namespace PatternAutomata

/-- What a token stands for, if runs stand for what `escape` says. -/
def Token.meaning (escape : List Char → Language String) (t : Token) : Language String :=
  if t.kind = .escape then escape t.value.toList else {[t.text]}

/-- The meaning of an escape as a label is the text of its token. -/
theorem Token.meaning_escapeLabel : Token.meaning escapeLabel = fun t => {[t.text]} := by
  funext ⟨kind, value, position⟩
  by_cases h : kind = .escape
  · subst h
    have htext : String.ofList ('\\' :: value.toList) = "\\" ++ value := by
      rw [← String.toList_inj]
      simp
    rw [meaning, if_pos rfl, escapeLabel, htext]
    rfl
  · rw [meaning, if_neg h]

/-- A pattern starts with a character, which is no `)`. -/
theorem Pattern.exists_cons {rank : Rank} {p : List Char} (h : Pattern rank p) :
    ∃ c cs, p = c :: cs ∧ c ≠ ')' := by
  induction h with
  | @letter c h =>
    refine ⟨c, [], rfl, ?_⟩
    rintro rfl
    cases h
  | escape => exact ⟨_, _, rfl, by decide⟩
  | group => exact ⟨_, _, rfl, by decide⟩
  | ofUnit _ ih | ofFactor _ ih | ofSequence _ ih => exact ih
  | star _ ih | plus _ ih | question _ ih | juxtapose _ _ ih | union _ _ ih =>
    obtain ⟨c, cs, rfl, hc⟩ := ih
    exact ⟨c, _, rfl, hc⟩

namespace Scanner

variable {s s' s'' : Scanner} {p q : List Char} {ts us : List Token} {kind : Kind} {c : Char}

/-! ## Getting through a text -/

/-- The scanner gets through the text, whatever follows. -/
def Takes (s : Scanner) (p : List Char) (s' : Scanner) : Prop :=
  ∀ rest, s.feedAll (p ++ rest) = s'.feedAll rest

theorem Takes.append (first : s.Takes p s') (second : s'.Takes q s'') : s.Takes (p ++ q) s'' := by
  intro rest
  rw [List.append_assoc, first, second]

theorem takes_alphanum (hc : c.isAlphanum = true) (s : Scanner) :
    s.Takes [c] (s.pushAlphanum c) := by
  intro rest
  rw [List.singleton_append, feedAll_cons, feed_alphanum hc, ok_bind]

theorem takes_sign (hsign : kind.sign = some c) (hallows : ∀ next, s.Allows next kind) :
    s.Takes [c] (s.pushSign kind c) := by
  intro rest
  rw [List.singleton_append, feedAll_cons, feed_sign hsign (hallows _), ok_bind]

/-- A run is taken into the escape before it. -/
theorem takes_run {older : List Token} {run : String} {position : Nat}
    (htokens : s.tokens = ⟨.escape, run, position⟩ :: older) (hp : ∀ c ∈ p, c.isAlphanum = true) :
    ∃ s', s.Takes p s' ∧ s'.tokens = ⟨.escape, run ++ String.ofList p, position⟩ :: older ∧
      s'.opened = s.opened := by
  induction p generalizing s run with
  | nil => exact ⟨s, fun _ => rfl, by rw [htokens, String.ofList_nil, String.append_empty], rfl⟩
  | cons c p ih =>
    obtain ⟨hc, hp⟩ := List.forall_mem_cons.mp hp
    have hpush : (s.pushAlphanum c).tokens = ⟨.escape, run.push c, position⟩ :: older := by
      simp [pushAlphanum, htokens]
    have hopened : (s.pushAlphanum c).opened = s.opened := by
      simp [pushAlphanum, htokens]
    obtain ⟨s', htakes, htokens', hopened'⟩ := ih hpush hp
    have hrun : run.push c ++ String.ofList p = run ++ String.ofList (c :: p) := by
      rw [← String.toList_inj]
      simp
    rw [hrun] at htokens'
    exact ⟨s', (takes_alphanum hc s).append htakes, htokens', hopened'.trans hopened⟩

/-! ## Cutting a text -/

theorem not_inRun_of_kind_ne {t : Token} {older : List Token} (h : s.tokens = t :: older)
    (hkind : t.kind ≠ .escape) : ¬s.InRun := by
  rintro ⟨run, position, older', heq⟩
  rw [h] at heq
  injection heq with heq
  exact hkind (by rw [heq])

theorem not_inRun_pushSign (h : kind.sign = some c) : ¬(s.pushSign kind c).InRun := by
  refine not_inRun_of_kind_ne rfl ?_
  rintro rfl
  cases h

/-- The scanner cuts the text into the tokens. -/
structure Cuts (s : Scanner) (p : List Char) (ts : List Token) (s' : Scanner) : Prop where
  /-- The scanner gets through the text. -/
  takes : s.Takes p s'
  /-- The tokens are new. -/
  tokens_eq : s'.tokens = ts.reverse ++ s.tokens
  /-- All groups that are opened are closed. -/
  opened_eq : s'.opened = s.opened
  /-- Only a text that ends in an escape leaves a run that can grow. -/
  endsInEscape : s'.InRun → EndsInEscape p

theorem Cuts.append (first : s.Cuts p ts s') (second : s'.Cuts q us s'') :
    s.Cuts (p ++ q) (ts ++ us) s'' where
  takes := first.takes.append second.takes
  tokens_eq := by
    rw [second.tokens_eq, first.tokens_eq, List.reverse_append, List.append_assoc]
  opened_eq := second.opened_eq.trans first.opened_eq
  endsInEscape hrun := endsInEscape_append.mpr (.inl (second.endsInEscape hrun))

/-- A sign that is always allowed and opens and closes nothing. -/
theorem cuts_sign {k : Kind} (hsign : k.sign = some c) (hpost : k.isPostfix = true)
    (s : Scanner) : s.Cuts [c] [Token.ofChar k c s.position] (s.pushSign k c) where
  takes := by
    refine takes_sign hsign fun next => ?_
    cases k with
    | star | plus | question => trivial
    | _ => cases hpost
  tokens_eq := rfl
  opened_eq := by
    cases k with
    | star | plus | question => rfl
    | _ => cases hpost
  endsInEscape hrun := absurd hrun (not_inRun_pushSign hsign)

theorem cuts_letter (hc : c.isAlphanum = true) (hready : ¬s.InRun) :
    s.Cuts [c] [Token.ofChar .literal c s.position] (s.push .literal c) where
  takes := by
    rw [← pushAlphanum_of_not_inRun hready]
    exact takes_alphanum hc s
  tokens_eq := rfl
  opened_eq := rfl
  endsInEscape hrun := absurd hrun (not_inRun_of_kind_ne rfl nofun)

theorem cuts_escape {run : List Char} (hrun : ∀ d ∈ c :: run, d.isAlphanum = true) (s : Scanner) :
    ∃ s', s.Cuts ('\\' :: c :: run) [⟨.escape, String.ofList (c :: run), s.position⟩] s' := by
  have hempty : s.pushEscape.tokens = ⟨.escape, "", s.position⟩ :: s.tokens := rfl
  obtain ⟨s', htakes, htokens, hopened⟩ := takes_run hempty hrun
  rw [String.empty_append] at htokens
  refine ⟨s', fun rest => ?_, htokens, hopened, fun _ => ⟨[], c :: run, rfl, hrun⟩⟩
  rw [List.cons_append, feedAll_cons, List.cons_append, List.head?_cons,
    feed_backslash (hrun c List.mem_cons_self), ok_bind, ← List.cons_append, htakes]

theorem cuts_group {opened : Scanner} (h : (s.pushSign .openParen '(').Cuts p ts opened) :
    s.Cuts ('(' :: (p ++ [')'])) (Token.ofChar .openParen '(' s.position ::
      (ts ++ [Token.ofChar .closeParen ')' opened.position]))
      (opened.pushSign .closeParen ')') where
  takes := by
    have hopen : s.Takes ['('] (s.pushSign .openParen '(') := takes_sign rfl fun _ => trivial
    have hclose : opened.Takes [')'] (opened.pushSign .closeParen ')') := by
      refine takes_sign rfl fun _ => ?_
      rw [Allows, h.opened_eq]
      exact Nat.succ_ne_zero _
    exact hopen.append (h.takes.append hclose)
  tokens_eq := by
    have htokens : (opened.pushSign .closeParen ')').tokens =
        Token.ofChar .closeParen ')' opened.position :: opened.tokens := rfl
    rw [htokens, h.tokens_eq]
    simp [pushSign, push]
  opened_eq := by
    have hlevel : (opened.pushSign .closeParen ')').opened = opened.opened - 1 := rfl
    rw [hlevel, h.opened_eq]
    rfl
  endsInEscape hrun := absurd hrun (not_inRun_pushSign rfl)

/-- Behind a token that ends an operand a `|` has something on its left. -/
theorem lacksLeft_eq_false {t : Token} {older : List Token} (h : s.tokens = t :: older)
    (ht : t.kind.endsOperand = true) : s.lacksLeft = false := by
  rw [lacksLeft, h]
  change (t.kind == .union || t.kind == .openParen) = false
  generalize t.kind = kind at ht
  cases kind with
  | union | openParen => cases ht
  | _ => rfl

/-- A `|` between two texts.  The left one ends an operand and the right one starts
one, so the `|` is allowed. -/
theorem cuts_union {t : Token} (lower : s.Cuts p (ts ++ [t]) s') (ht : t.kind.endsOperand = true)
    (hq : ∃ c cs, q = c :: cs ∧ c ≠ ')')
    (upper : (s'.pushSign .union '|').Cuts q us s'') :
    s.Cuts (p ++ '|' :: q) (ts ++ [t] ++ Token.ofChar .union '|' s'.position :: us) s'' where
  takes := by
    intro rest
    have htokens : s'.tokens = t :: (ts.reverse ++ s.tokens) := by
      rw [lower.tokens_eq, List.reverse_append, List.reverse_singleton, List.singleton_append,
        List.cons_append]
    have hallows : s'.Allows (q ++ rest).head? .union := by
      obtain ⟨c, cs, rfl, hc⟩ := hq
      exact ⟨lacksLeft_eq_false htokens ht, beq_eq_false_iff_ne.mpr hc⟩
    rw [List.append_assoc, lower.takes, List.cons_append, feedAll_cons, feed_sign rfl hallows,
      ok_bind, upper.takes]
  tokens_eq := by
    rw [upper.tokens_eq]
    simp [pushSign, push, lower.tokens_eq]
  opened_eq := upper.opened_eq.trans lower.opened_eq
  endsInEscape hrun := by
    rw [← List.singleton_append, ← List.append_assoc]
    exact endsInEscape_append.mpr (.inl (upper.endsInEscape hrun))

end Scanner

/-! ## Patterns -/

/-- A text that denotes a language is cut into tokens that derive an expression of
that language. -/
theorem Denotes.cuts {escape : List Char → Language String} {rank : Rank} {p : List Char}
    {L : Language String} (h : Denotes escape rank p L) (s : Scanner)
    (hready : StartsAlphanum p → ¬s.InRun) :
    ∃ ts e s', s.Cuts p ts s' ∧ Derives rank ts e ∧
      e.languageWith (Token.meaning escape) = L := by
  induction h generalizing s with
  | @letter c hc =>
    exact ⟨_, _, _, Scanner.cuts_letter hc (hready ⟨c, [], rfl, hc⟩), .operand rfl, rfl⟩
  | @escaped c run hrun =>
    obtain ⟨s', hcuts⟩ := Scanner.cuts_escape hrun s
    refine ⟨_, _, s', hcuts, .operand rfl, ?_⟩
    rw [Expr.languageWith, Token.meaning, if_pos rfl, String.toList_ofList]
  | group _ ih =>
    obtain ⟨ts, e, s', hcuts, hderives, hlanguage⟩ :=
      ih (s.pushSign .openParen '(') fun _ => Scanner.not_inRun_pushSign rfl
    exact ⟨_, e, _, Scanner.cuts_group hcuts, .group rfl hderives rfl, hlanguage⟩
  | ofUnit _ ih =>
    obtain ⟨ts, e, s', hcuts, hderives, hlanguage⟩ := ih s hready
    exact ⟨ts, e, s', hcuts, .ofUnit hderives, hlanguage⟩
  | star inner ih =>
    rw [startsAlphanum_append inner.pattern.ne_nil] at hready
    obtain ⟨ts, e, s', hcuts, hderives, rfl⟩ := ih s hready
    exact ⟨_, _, _, hcuts.append (s'.cuts_sign (k := .star) rfl rfl), .star hderives rfl, rfl⟩
  | plus inner ih =>
    rw [startsAlphanum_append inner.pattern.ne_nil] at hready
    obtain ⟨ts, e, s', hcuts, hderives, rfl⟩ := ih s hready
    exact ⟨_, _, _, hcuts.append (s'.cuts_sign (k := .plus) rfl rfl), .plus hderives rfl, rfl⟩
  | question inner ih =>
    rw [startsAlphanum_append inner.pattern.ne_nil] at hready
    obtain ⟨ts, e, s', hcuts, hderives, rfl⟩ := ih s hready
    exact ⟨_, _, _, hcuts.append (s'.cuts_sign (k := .question) rfl rfl),
      .question hderives rfl, rfl⟩
  | ofFactor _ ih =>
    obtain ⟨ts, e, s', hcuts, hderives, hlanguage⟩ := ih s hready
    exact ⟨ts, e, s', hcuts, .ofFactor hderives, hlanguage⟩
  | juxtapose lower _ apart ihl ihu =>
    -- The scanner is ready for the upper part, since the two are apart.
    rw [startsAlphanum_append lower.pattern.ne_nil] at hready
    obtain ⟨ts, d, s₁, hlower, hd, rfl⟩ := ihl s hready
    obtain ⟨us, e, s₂, hupper, he, rfl⟩ :=
      ihu s₁ fun hstarts hrun => apart (hlower.endsInEscape hrun) hstarts
    obtain ⟨u, us, rfl, -⟩ := he.exists_cons
    exact ⟨_, _, s₂, hlower.append hupper, .juxtapose hd he, rfl⟩
  | ofSequence _ ih =>
    obtain ⟨ts, e, s', hcuts, hderives, hlanguage⟩ := ih s hready
    exact ⟨ts, e, s', hcuts, .ofSequence hderives, hlanguage⟩
  | union lower upper ihl ihu =>
    rw [startsAlphanum_append lower.pattern.ne_nil] at hready
    obtain ⟨ts, d, s₁, hlower, hd, rfl⟩ := ihl s hready
    obtain ⟨us, e, s₂, hupper, he, rfl⟩ :=
      ihu (s₁.pushSign .union '|') fun _ => Scanner.not_inRun_pushSign rfl
    obtain ⟨ts, t, rfl, ht⟩ := hd.exists_append_last
    exact ⟨_, _, s₂, Scanner.cuts_union hlower ht upper.pattern.exists_cons hupper,
      .union hd rfl he, rfl⟩

variable {escape : List Char → Language String} {p : String} {L M : Language String}

theorem Scanner.not_inRun_start : ¬start.InRun := by
  rintro ⟨run, position, older, heq⟩
  cases heq

/-- A pattern that is cut into tokens from the start is scanned into them. -/
theorem scan_of_cuts {ts : List Token} {s : Scanner} (h : Scanner.start.Cuts p.toList ts s)
    (hne : p.toList ≠ []) : scan p = .ok (ts ++ [Token.bare .endMark s.position]) := by
  have hopened : s.opened = 0 := h.opened_eq
  have hfeed := h.takes []
  rw [List.append_nil, Scanner.feedAll_nil] at hfeed
  rw [scan, if_neg hne, hfeed, ok_bind, Scanner.finish, if_pos hopened, List.reverse_cons,
    h.tokens_eq]
  simp [Scanner.start]

/-- A text that denotes a language comes out of a scan as tokens that derive an
expression of that language. -/
theorem scan_of_denotes (h : Denotes escape .choice p.toList L) :
    ∃ ts e, scan p = .ok ts ∧ Derives .choice (Rpn.body ts) e ∧
      e.languageWith (Token.meaning escape) = L := by
  obtain ⟨ts, e, s, hcuts, hderives, hlanguage⟩ :=
    h.cuts Scanner.start fun _ => Scanner.not_inRun_start
  have hscan := scan_of_cuts hcuts h.pattern.ne_nil
  obtain ⟨us, position, heq, hlexemes, -⟩ := scan_eq_ok hscan
  obtain ⟨rfl, -⟩ := List.append_inj' heq rfl
  refine ⟨_, e, hscan, ?_, hlanguage⟩
  rwa [body_append_endMark hlexemes]

/-- A pattern stands for one language. -/
theorem denotes_unique (hL : Denotes escape .choice p.toList L)
    (hM : Denotes escape .choice p.toList M) : L = M := by
  obtain ⟨ts, d, hscan, hd, rfl⟩ := scan_of_denotes hL
  obtain ⟨us, e, hscan', he, rfl⟩ := scan_of_denotes hM
  rw [hscan] at hscan'
  injection hscan' with hscan'
  subst hscan'
  rw [Rpn.derives_unique hd he]

end PatternAutomata
