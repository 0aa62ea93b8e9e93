import PatternAutomata.Proofs.Scan.Writable

/-!
# Scanning and writing are inverse

A scan gives tokens back that can be written, and only such tokens.  The result is one
equivalence.  A text is scanned into tokens if and only if it is what these tokens
write, the tokens can be written, and each of them stands where the texts before it
end (`scan_eq_ok_iff`).

From left to right, a scan keeps what it has seen in this order (`Scanner.Neat`).  From
right to left, the scanner takes the text of one token after the other, and gets
through each because of what stands beside it (`Scanner.feedAll_spelling`).
-/

namespace PatternAutomata

variable {p : String} {ts us : List Token} {t : Token}

/-! ## From a text to tokens -/

namespace Scanner

variable {s s' : Scanner} {c : Char} {next : Option Char} {cs : List Char}

/-- The kind of the newest token. -/
def previous (s : Scanner) : Option Kind := s.tokens.head?.map Token.kind

theorem inRun_iff : s.InRun ↔ s.previous = some .escape := by
  obtain ⟨tokens, opened, position⟩ := s
  cases tokens with
  | nil => simp [InRun, previous]
  | cons t older =>
    obtain ⟨kind, value, place⟩ := t
    simp [InRun, previous]

theorem lacksLeft_eq_false_iff :
    s.lacksLeft = false ↔ ∃ k, s.previous = some k ∧ k ≠ .union ∧ k ≠ .openParen := by
  obtain ⟨tokens, opened, position⟩ := s
  cases tokens <;> simp [lacksLeft, previous]

theorem lacksRight_eq_false_iff : lacksRight next = false ↔ ∃ c, next = some c ∧ c ≠ ')' := by
  cases next <;> simp [lacksRight]

/-- What a scanner has seen is in order. -/
structure Neat (next : Option Char) (s : Scanner) : Prop where
  /-- Neighbours may stand side by side, the newest token first. -/
  fits : (s.tokens.map (fun t : Token => some t.kind) ++ [none]).IsChain
    fun right left => Kind.Fits left right
  /-- A choice still has something on its right. -/
  ahead : s.previous = some .union → lacksRight next = false
  /-- Every token stands where the texts before it end. -/
  placed : Placed s.tokens.reverse
  /-- The next character stands where the texts so far end. -/
  position_eq : s.position = (written s.tokens.reverse).utf8ByteSize

/-- What stands in front of the next token. -/
theorem head?_border (s : Scanner) :
    (s.tokens.map (fun t : Token => some t.kind) ++ [none]).head? = some s.previous := by
  rw [previous]
  cases s.tokens <;> rfl

theorem neat_start : start.Neat next where
  fits := .singleton none
  ahead := nofun
  placed := fun _ _ _ heq => nomatch List.append_eq_nil_iff.mp heq.symm
  position_eq := rfl

theorem Neat.push (h : s.Neat (some c)) (htokens : s'.tokens = t :: s.tokens)
    (ht : t.position = s.position) (hposition : s'.position = s.position + t.text.utf8ByteSize)
    (hfits : Kind.Fits s.previous (some t.kind))
    (hahead : t.kind = .union → lacksRight next = false) : s'.Neat next where
  fits := by
    rw [htokens, List.map_cons, List.cons_append, List.isChain_cons]
    refine ⟨fun left hleft => ?_, h.fits⟩
    rw [head?_border, Option.mem_some_iff] at hleft
    rwa [← hleft]
  ahead hprevious := by
    rw [previous, htokens] at hprevious
    exact hahead (Option.some_inj.mp hprevious)
  placed := by
    rw [htokens, List.reverse_cons, placed_append_singleton, ht]
    exact ⟨h.placed, h.position_eq⟩
  position_eq := by
    rw [htokens, List.reverse_cons, written_append_singleton, String.utf8ByteSize_append,
      ← h.position_eq, hposition]

/-- A run that grows stays where it is. -/
theorem Neat.grow (h : s.Neat (some c)) (hrun : s.InRun) (next : Option Char) :
    (s.pushAlphanum c).Neat next := by
  obtain ⟨run, position, older, heq⟩ := hrun
  have htokens : (s.pushAlphanum c).tokens = ⟨.escape, run.push c, position⟩ :: older := by
    simp [pushAlphanum, heq]
  have hposition : (s.pushAlphanum c).position = s.position + c.utf8Size := by
    simp [pushAlphanum, heq]
  have hplaced := h.placed
  rw [heq, List.reverse_cons, placed_append_singleton] at hplaced
  exact {
    fits := by
      have hfits := h.fits
      rw [heq] at hfits
      rw [htokens]
      exact hfits
    ahead := fun hprevious => by
      rw [previous, htokens] at hprevious
      cases hprevious
    placed := by
      rw [htokens, List.reverse_cons, placed_append_singleton]
      exact hplaced
    position_eq := by
      have hend := h.position_eq
      rw [heq, List.reverse_cons, written_append_singleton] at hend
      rw [hposition, htokens, List.reverse_cons, written_append_singleton, hend]
      simp [Token.text, String.utf8ByteSize_append, String.utf8ByteSize_push, Nat.add_assoc] }

/-- A kind may stand behind the newest token if its character does. -/
theorem Neat.fits_next {k : Kind} (h : s.Neat (some c)) (hliteral : k = .literal → ¬s.InRun)
    (hunion : k = .union → s.lacksLeft = false) (hclose : k = .closeParen → c = ')') :
    Kind.Fits s.previous (some k) where
  apart hprevious heq := hliteral (Option.some_inj.mp heq) (inRun_iff.mpr hprevious)
  choice_left heq := lacksLeft_eq_false_iff.mp (hunion (Option.some_inj.mp heq))
  choice_right hprevious := by
    obtain ⟨d, hd, hne⟩ := lacksRight_eq_false_iff.mp (h.ahead hprevious)
    cases hd
    exact ⟨k, rfl, fun heq => hne (hclose heq)⟩

/-- A character keeps in order what the scanner has seen. -/
theorem Neat.feed (h : s.Neat (some c)) (hfeed : s.feed c next = .ok s') : s'.Neat next := by
  rcases feed_eq_ok hfeed with ⟨hc, rfl⟩ | ⟨kind, hsign, hallows, rfl⟩ | ⟨rfl, -, rfl⟩
  · by_cases hrun : s.InRun
    · exact h.grow hrun next
    · rw [pushAlphanum_of_not_inRun hrun]
      have hunion : Kind.literal ≠ .union := by decide
      have hclose : Kind.literal ≠ .closeParen := by decide
      refine h.push (t := .ofChar .literal c s.position) rfl rfl ?_ ?_ (absurd · hunion)
      · rw [Token.text, Token.ofChar, String.utf8ByteSize_singleton]
        rfl
      · exact h.fits_next (fun _ => hrun) (absurd · hunion) (absurd · hclose)
  · have htext : (Token.ofChar kind c s.position).text = String.singleton c := by
      rw [← String.toList_inj, text_sign hsign, String.toList_singleton]
    refine h.push (t := .ofChar kind c s.position) rfl rfl ?_ ?_ ?_
    · rw [htext, String.utf8ByteSize_singleton]
      rfl
    · refine h.fits_next ?_ ?_ ?_
      · rintro rfl
        cases hsign
      · rintro rfl
        exact hallows.1
      · rintro rfl
        cases hsign
        rfl
    · rintro rfl
      exact hallows.2
  · have hliteral : Kind.escape ≠ .literal := by decide
    have hunion : Kind.escape ≠ .union := by decide
    have hclose : Kind.escape ≠ .closeParen := by decide
    refine h.push (t := .bare .escape s.position) rfl rfl rfl ?_ (absurd · hunion)
    exact h.fits_next (absurd · hliteral) (absurd · hunion) (absurd · hclose)

theorem Neat.feedAll (h : s.Neat cs.head?) (hfeed : s.feedAll cs = .ok s') : s'.Neat none := by
  induction cs generalizing s with
  | nil =>
    cases hfeed
    exact h
  | cons c cs ih =>
    rw [feedAll_cons, bind_eq_ok_iff] at hfeed
    obtain ⟨next, hfirst, hrest⟩ := hfeed
    exact ih (h.feed hfirst) hrest

/-! ## From tokens to a text -/

/-- A sign that fits is allowed. -/
theorem allows_of_fits {kind : Kind} {n : Nat} (hfits : Kind.Fits s.previous (some kind))
    (hnest : kind.nest s.opened = some n) (hright : kind = .union → lacksRight next = false) :
    s.Allows next kind := by
  cases kind with
  | closeParen =>
    intro hopened
    rw [hopened] at hnest
    cases hnest
  | union => exact ⟨lacksLeft_eq_false_iff.mpr (hfits.choice_left rfl), hright rfl⟩
  | _ => trivial

/-- The scanner takes the text of a token that fits as this token, whatever follows. -/
theorem feedAll_text {rest : List Char} {n : Nat} (ht : t.Canonical)
    (hfits : Kind.Fits s.previous (some t.kind)) (hnest : t.kind.nest s.opened = some n)
    (hright : t.kind = .union → lacksRight rest.head? = false) :
    ∃ (s' : Scanner) (u : Token), s.feedAll (t.text.toList ++ rest) = s'.feedAll rest ∧
      s'.tokens = u :: s.tokens ∧ u.content = t.content ∧ s'.opened = n := by
  obtain ⟨kind, value, position⟩ := t
  cases kind with
  | literal =>
    obtain ⟨c, hc, heq⟩ := ht
    change value = _ at heq
    subst heq
    have hrun : ¬s.InRun := fun hrun => hfits.apart (inRun_iff.mp hrun) rfl
    have htakes := takes_alphanum hc s rest
    rw [pushAlphanum_of_not_inRun hrun] at htakes
    cases hnest
    refine ⟨s.push .literal c, _, ?_, rfl, rfl, rfl⟩
    rw [← htakes, ← text_literal c position]
    rfl
  | escape =>
    obtain ⟨hne, hrun⟩ := ht
    obtain ⟨c, run, heq⟩ := List.exists_cons_of_ne_nil (mt String.toList_eq_nil_iff.mp hne)
    change value.toList = _ at heq
    change ∀ d ∈ value.toList, _ at hrun
    rw [heq] at hrun
    obtain ⟨s', hcuts⟩ := cuts_escape hrun s
    cases hnest
    refine ⟨s', _, ?_, hcuts.tokens_eq, ?_, hcuts.opened_eq⟩
    · rw [text_escape, heq]
      exact hcuts.takes rest
    · rw [Token.content, ← heq, String.ofList_toList]
      rfl
  | star | plus | question | openParen | closeParen | union =>
    obtain ⟨c, hsign, heq⟩ := ht
    change value = _ at heq
    subst heq
    have hallows := allows_of_fits hfits hnest hright
    rw [nest_of_sign hsign hallows] at hnest
    cases hnest
    refine ⟨s.pushSign _ c, _, ?_, rfl, rfl, rfl⟩
    have htext := text_sign hsign position
    rw [Token.ofChar] at htext
    rw [htext, List.singleton_append, feedAll_cons, feed_sign hsign hallows, ok_bind]
  | concat | epsilon | endMark =>
    obtain ⟨c, hsign, -⟩ := ht
    cases hsign

/-- What stands behind a choice is something on its right. -/
theorem lacksRight_spelling (hcanon : ∀ t ∈ ts, t.Canonical)
    (hfits : (some .union :: (ts.map (fun t : Token => some t.kind) ++ [none])).IsChain Kind.Fits) :
    lacksRight (spelling ts).head? = false := by
  cases ts with
  | nil =>
    obtain ⟨k, hk, -⟩ := (List.isChain_pair.mp hfits).choice_right rfl
    cases hk
  | cons t ts =>
    rw [List.map_cons, List.cons_append, List.isChain_cons_cons] at hfits
    obtain ⟨k, hk, hclose⟩ := hfits.1.choice_right rfl
    injection hk with hk
    obtain ⟨c, cs, htext, hc⟩ := (hcanon t List.mem_cons_self).exists_cons (hk ▸ hclose)
    rw [spelling_cons, htext, lacksRight_eq_false_iff]
    exact ⟨c, rfl, hc⟩

/-- The scanner takes the texts of tokens that fit as these tokens. -/
theorem feedAll_spelling {n : Nat} (hcanon : ∀ t ∈ ts, t.Canonical)
    (hfits : (s.previous :: (ts.map (fun t : Token => some t.kind) ++ [none])).IsChain Kind.Fits)
    (hnest : nesting s.opened (ts.map Token.kind) = some n) :
    ∃ (s' : Scanner) (us : List Token), s.feedAll (spelling ts) = .ok s' ∧
      s'.tokens = us.reverse ++ s.tokens ∧ us.map Token.content = ts.map Token.content ∧
      s'.opened = n := by
  induction ts generalizing s with
  | nil =>
    cases hnest
    exact ⟨s, [], rfl, rfl, rfl, rfl⟩
  | cons t ts ih =>
    obtain ⟨ht, hcanon⟩ := List.forall_mem_cons.mp hcanon
    rw [List.map_cons, List.cons_append, List.isChain_cons_cons] at hfits
    rw [List.map_cons, nesting_cons, Option.bind_eq_some_iff] at hnest
    obtain ⟨inner, hfirst, hrest⟩ := hnest
    have hright : t.kind = .union → lacksRight (spelling ts).head? = false := fun hkind =>
      lacksRight_spelling hcanon (hkind ▸ hfits.2)
    obtain ⟨s₁, u, htake, htokens, hu, rfl⟩ := feedAll_text ht hfits.1 hfirst hright
    have hprevious : s₁.previous = some t.kind := by
      rw [previous, htokens]
      exact congrArg some (congrArg Prod.fst hu)
    obtain ⟨s', us, hrun, htokens', hus, hopened⟩ := ih hcanon (hprevious ▸ hfits.2) hrest
    refine ⟨s', u :: us, ?_, ?_, ?_, hopened⟩
    · rw [spelling_cons, htake, hrun]
    · rw [htokens', htokens, List.reverse_cons, List.append_assoc, List.singleton_append]
    · rw [List.map_cons, List.map_cons, hu, hus]

end Scanner

/-! ## Both ways -/

/-- What a scan gives can be written, and is what the text was written from. -/
theorem writable_of_scan (h : scan p = .ok ts) :
    ∃ us, ts = us ++ [⟨.endMark, "", p.utf8ByteSize⟩] ∧ written us = p ∧ Placed us ∧
      Writable us := by
  obtain ⟨s, hne, hfeed, hopened, rfl⟩ := scan_run h
  obtain ⟨htidy, hspelled⟩ := Scanner.tidy_feedAll (.complete (List.forall_mem_nil _)) hfeed
  have hneat := Scanner.neat_start.feedAll hfeed
  have hcounts := Scanner.counts_start.feedAll hfeed
  rw [Scanner.Counts, hopened] at hcounts
  have hwritten : written s.tokens.reverse = p := by
    rw [← String.toList_inj, toList_written]
    exact hspelled
  refine ⟨s.tokens.reverse, ?_, hwritten, hneat.placed, writable_iff.mpr ⟨?_, ?_, ?_, hcounts⟩⟩
  · rw [hneat.position_eq, hwritten]
    rfl
  · intro hnil
    rw [hnil] at hwritten
    exact hne (by rw [← hwritten]; rfl)
  · intro t ht
    rw [Token.canonical_iff_isLexeme]
    exact htidy.isLexeme (fun c hc => absurd hc (Option.some_ne_none c).symm) t
      (List.mem_reverse.mp ht)
  · have hborder : bordered s.tokens.reverse =
        (none :: (s.tokens.map (fun t : Token => some t.kind) ++ [none])).reverse := by
      simp [bordered]
    rw [hborder, List.isChain_reverse, List.isChain_cons, Scanner.head?_border]
    refine ⟨fun left hleft => ?_, hneat.fits⟩
    cases hleft
    refine .of_ne (.inr (by decide)) (fun hprevious => ?_) (by decide)
    cases hneat.ahead hprevious

/-- What tokens that can be written write is scanned into these tokens. -/
theorem scan_written (h : Writable ts) : ∃ us position,
    scan (written ts) = .ok (us ++ [Token.bare .endMark position]) ∧
      us.map Token.content = ts.map Token.content := by
  obtain ⟨hne, hcanon, hfits, hnest⟩ := writable_iff.mp h
  obtain ⟨s, us, hrun, htokens, hus, hopened⟩ :=
    @Scanner.feedAll_spelling ts Scanner.start 0 hcanon hfits hnest
  have htext : spelling ts ≠ [] := by
    obtain ⟨t, rest, rfl⟩ := List.exists_cons_of_ne_nil hne
    have ht := (hcanon t List.mem_cons_self).text_ne_nil
    simp [ht]
  refine ⟨us, s.position, ?_, hus⟩
  rw [scan, toList_written, if_neg htext, hrun, ok_bind, Scanner.finish, if_pos hopened, htokens]
  simp [Scanner.start]

/-- A text is scanned into tokens if and only if it is what they write and they can be
written, each where the texts before it end. -/
theorem scan_eq_ok_iff : scan p = .ok ts ↔ ∃ us, ts = us ++ [⟨.endMark, "", p.utf8ByteSize⟩] ∧
    written us = p ∧ Placed us ∧ Writable us := by
  refine ⟨writable_of_scan, ?_⟩
  rintro ⟨us, rfl, rfl, hplaced, hwritable⟩
  obtain ⟨vs, position, hscan, hvs⟩ := scan_written hwritable
  obtain ⟨ws, heq, -, hws, -⟩ := writable_of_scan hscan
  obtain ⟨rfl, hlast⟩ := List.append_inj' heq rfl
  rw [hscan, hlast, hws.eq_of_content hplaced hvs]

/-- The body of a scan is what the pattern is written from. -/
theorem body_of_scan (h : scan p = .ok ts) :
    written (Rpn.body ts) = p ∧ Placed (Rpn.body ts) ∧ Writable (Rpn.body ts) := by
  obtain ⟨us, rfl, hwritten, hplaced, hwritable⟩ := writable_of_scan h
  rw [Rpn.body_append (fun t ht => (hwritable.canonical t ht).kind_ne.2) rfl]
  exact ⟨hwritten, hplaced, hwritable⟩

theorem placed_of_scan (h : scan p = .ok ts) : Placed ts := by
  obtain ⟨us, rfl, rfl, hplaced, -⟩ := writable_of_scan h
  exact placed_append_singleton.mpr ⟨hplaced, rfl⟩

/-- The tokens of a scan write the text again, stand where the texts before them end, and
can be written, up to the one mark of the end.  What tokens that can be written write is
scanned into tokens of the same kinds and values. -/
theorem scan_inverse_written :
    (∀ p ts, scan p = .ok ts → ∃ us, ts = us ++ [⟨.endMark, "", p.utf8ByteSize⟩] ∧
      (∀ t ∈ us, t.kind ≠ .endMark) ∧ written ts = p ∧ Placed ts ∧ Writable us) ∧
    ∀ us, Writable us → ∃ vs,
      scan (written us) = .ok (vs ++ [⟨.endMark, "", (written us).utf8ByteSize⟩]) ∧
        vs.map (fun t => (t.kind, t.value)) = us.map fun t => (t.kind, t.value) := by
  refine ⟨fun p ts h => ?_, fun us h => ?_⟩
  · obtain ⟨us, rfl, hwritten, -, hwritable⟩ := writable_of_scan h
    refine ⟨us, rfl, fun t ht => (hwritable.canonical t ht).kind_ne.2, ?_, placed_of_scan h,
      hwritable⟩
    rw [written_append_singleton, hwritten]
    exact String.append_empty
  · obtain ⟨vs, position, hscan, hvs⟩ := scan_written h
    obtain ⟨ws, heq, -⟩ := writable_of_scan hscan
    rw [(List.append_inj' heq rfl).2] at hscan
    exact ⟨vs, hscan, hvs⟩

/-- A choice between an escape and a group, at no place in particular. -/
def escapeOrGroup : List Token :=
  [⟨.escape, "d1", 7⟩, ⟨.union, "|", 7⟩, ⟨.openParen, "(", 7⟩, ⟨.literal, "a", 7⟩,
    ⟨.closeParen, ")", 7⟩]

theorem writable_escapeOrGroup : Writable escapeOrGroup := by
  refine writable_iff.mpr ⟨List.cons_ne_nil _ _, ?_, by decide, rfl⟩
  simp only [escapeOrGroup, List.forall_mem_cons]
  exact ⟨⟨by simp, by simp⟩, ⟨'|', rfl, rfl⟩, ⟨'(', rfl, rfl⟩, ⟨'a', rfl, rfl⟩,
    ⟨')', rfl, rfl⟩, List.forall_mem_nil _⟩

theorem scan_inverse_written_escapeOrGroup :
    (∃ us, scan "\\d1|(a)" = .ok (us ++ [⟨.endMark, "", 7⟩]) ∧ Writable us) ∧
    Writable escapeOrGroup ∧ ∃ vs, scan (written escapeOrGroup) =
      .ok (vs ++ [⟨.endMark, "", (written escapeOrGroup).utf8ByteSize⟩]) ∧
        vs.map (fun t => (t.kind, t.value)) = escapeOrGroup.map fun t => (t.kind, t.value) := by
  obtain ⟨hread, hwrite⟩ := scan_inverse_written
  have hscan : ∃ ts, scan "\\d1|(a)" = .ok ts := ⟨_, rfl⟩
  obtain ⟨ts, hscan⟩ := hscan
  obtain ⟨us, rfl, -, -, -, hwritable⟩ := hread _ _ hscan
  exact ⟨⟨us, hscan, hwritable⟩, writable_escapeOrGroup, hwrite _ writable_escapeOrGroup⟩

end PatternAutomata
