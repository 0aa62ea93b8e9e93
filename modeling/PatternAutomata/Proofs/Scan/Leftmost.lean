import PatternAutomata.Proofs.Places
import PatternAutomata.Proofs.Scan.Faults

/-!
# The leftmost fault

Whether a character is a fault can be told from the characters in front of it and from the
one behind it (`Faulty`).  A scan tells the leftmost of them.  If there is none, it tells a
group that is never closed, and otherwise it gives the tokens of the pattern
(`scan_leftmost`).

The scanner does not look back at characters.  All that it needs of those in front are
three things: how many bytes they take, how many groups they leave open, and whether a `|`
has something on its left (`Scanner.Follows`).  They are ASCII, or it would not have got
through them, so its offset never falls inside a character.
-/

namespace PatternAutomata

variable {before behind cs : List Char} {c d : Char} {cause : ScanCause} {p : String}

/-! ## Faulty characters -/

/-- A character is a fault between these characters. -/
inductive Faulty (before behind : List Char) : Char → ScanCause → Prop where
  /-- It is neither alphanumeric nor a sign. -/
  | strayChar {c : Char} (letter : c.isAlphanum = false)
      (sign : c ∉ ['*', '+', '?', '(', ')', '|', '\\']) : Faulty before behind c .strayChar
  /-- As many groups are closed in front of it as are opened. -/
  | unmatchedClose (balanced : before.count '(' = before.count ')') :
      Faulty before behind ')' .unmatchedClose
  /-- There is nothing on its left or on its right that could be chosen. -/
  | strayUnion (lacks : (before = [] ∨ before.getLast? = some '|' ∨ before.getLast? = some '(') ∨
      behind = [] ∨ behind.head? = some ')') : Faulty before behind '|' .strayUnion
  /-- Nothing stands behind it. -/
  | escapeAtEnd (last : behind = []) : Faulty before behind '\\' .escapeAtEnd
  /-- What stands behind it is not alphanumeric. -/
  | emptyEscape {d : Char} (next : behind.head? = some d) (letter : d.isAlphanum = false) :
      Faulty before behind '\\' .emptyEscape

/-- Some cause makes a character a fault. -/
def IsFault (before : List Char) (c : Char) (behind : List Char) : Prop :=
  ∃ cause, Faulty before behind c cause

/-- What is told about the characters of a pattern that cannot be scanned. -/
inductive LeftmostFault (cs : List Char) : ScanFault → Prop where
  /-- The first character that is a fault is told, where it stands. -/
  | character {before behind : List Char} {c : Char} {cause : ScanCause}
      (first : First IsFault cs before c behind) (faulty : Faulty before behind c cause) :
      LeftmostFault cs (cause.fault (String.ofList before).utf8ByteSize)
  /-- If no character is a fault, an open group is told at the end. -/
  | unclosed (none : Nowhere IsFault cs) (opened : cs.count ')' < cs.count '(') :
      LeftmostFault cs (ScanCause.unmatchedOpen.fault (String.ofList cs).utf8ByteSize)

theorem Faulty.kind_eq (h : Faulty before behind c cause) :
    cause.kind = if c = '\\' then .invalidEscape else .invalidChar := by
  cases h with
  | strayChar _ sign =>
    rw [if_neg]
    · rfl
    · rintro rfl
      exact sign (by decide)
  | unmatchedClose | strayUnion | escapeAtEnd | emptyEscape => rfl

namespace Scanner

variable {s s' : Scanner} {next : Option Char}

/-! ## In front of a character -/

/-- Takes the characters of a list, which others follow. -/
def feedBefore (s : Scanner) (behind : List Char) : List Char → Except ScanFault Scanner
  | [] => .ok s
  | c :: cs => s.feed c (cs ++ behind).head? >>= fun s' => s'.feedBefore behind cs

theorem feedAll_append (s : Scanner) (cs behind : List Char) :
    s.feedAll (cs ++ behind) = s.feedBefore behind cs >>= fun s' => s'.feedAll behind := by
  induction cs generalizing s with
  | nil => rfl
  | cons c cs ih =>
    rw [List.cons_append, feedAll_cons, feedBefore, bind_assoc]
    simp only [ih]

/-- What a scanner knows about the characters in front of it. -/
structure Follows (before : List Char) (s : Scanner) : Prop where
  ascii : Text.IsAscii (String.ofList before)
  position_eq : s.position = (String.ofList before).utf8ByteSize
  opened_eq : s.opened + before.count ')' = before.count '('
  lacksLeft_iff : s.lacksLeft = true ↔
    before = [] ∨ before.getLast? = some '|' ∨ before.getLast? = some '('

theorem follows_start : Follows [] start := ⟨nofun, rfl, rfl, iff_of_true rfl (.inl rfl)⟩

theorem lacksLeft_pushAlphanum (s : Scanner) (c : Char) : (s.pushAlphanum c).lacksLeft = false := by
  unfold pushAlphanum
  split <;> rfl

theorem lacksRight_head?_iff :
    lacksRight behind.head? = true ↔ behind = [] ∨ behind.head? = some ')' := by
  cases behind <;> simp [lacksRight]

theorem opened_pushAlphanum (s : Scanner) (c : Char) : (s.pushAlphanum c).opened = s.opened := by
  unfold pushAlphanum
  split <;> rfl

theorem lacksLeft_pushSign_iff {kind : Kind} (hsign : kind.sign = some c) :
    (s.pushSign kind c).lacksLeft = true ↔ c = '|' ∨ c = '(' := by
  cases kind with
  | star | plus | question | openParen | closeParen | union =>
    cases hsign
    simp [pushSign, push, lacksLeft, Token.ofChar]
  | _ => cases hsign

/-- An allowed sign opens and closes the groups that are counted. -/
theorem level_add_count {kind : Kind} (hsign : kind.sign = some c) (hallows : s.Allows next kind)
    (hopened : s.opened + before.count ')' = before.count '(') :
    kind.level s.opened + (before ++ [c]).count ')' = (before ++ [c]).count '(' := by
  cases kind with
  | openParen =>
    cases hsign
    have hcounts : (before ++ ['(']).count ')' = before.count ')' ∧
        (before ++ ['(']).count '(' = before.count '(' + 1 := by simp
    change s.opened + 1 + _ = _
    omega
  | closeParen =>
    cases hsign
    have hinside : s.opened ≠ 0 := hallows
    have hcounts : (before ++ [')']).count ')' = before.count ')' + 1 ∧
        (before ++ [')']).count '(' = before.count '(' := by simp
    change s.opened - 1 + _ = _
    omega
  | star | plus | question | union =>
    cases hsign
    simpa [Kind.level] using hopened
  | _ => cases hsign

namespace Follows

/-- Behind one more character, the bytes are counted and the last character is known. -/
theorem snoc (h : Follows before s) (hfeed : s.feed c next = .ok s')
    (hopened : s'.opened + (before ++ [c]).count ')' = (before ++ [c]).count '(')
    (hleft : s'.lacksLeft = true ↔ c = '|' ∨ c = '(') : Follows (before ++ [c]) s' where
  ascii := by
    have hbefore := h.ascii
    rw [Text.IsAscii, String.toList_ofList] at hbefore ⊢
    exact List.forall_mem_append.mpr ⟨hbefore, List.forall_mem_singleton.mpr (feed_ascii hfeed).1⟩
  position_eq := by
    rw [(feed_ascii hfeed).2, h.position_eq, String.ofList_append, String.utf8ByteSize_append,
      Text.utf8ByteSize_ofList_cons]
    rfl
  opened_eq := hopened
  lacksLeft_iff := by
    rw [hleft]
    simp

/-- A character that the scanner takes is in front of it then. -/
theorem feed (h : Follows before s) (hfeed : s.feed c next = .ok s') :
    Follows (before ++ [c]) s' := by
  have hopened := h.opened_eq
  rcases feed_eq_ok hfeed with ⟨hc, rfl⟩ | ⟨kind, hsign, hallows, rfl⟩ | ⟨rfl, -, rfl⟩
  · have hne : ∀ sign : Char, sign.isAlphanum = false → c ≠ sign := by
      rintro sign hsign rfl
      rw [hc] at hsign
      cases hsign
    refine h.snoc hfeed ?_ ?_
    · rw [opened_pushAlphanum]
      simp [hne '(' rfl, hne ')' rfl, hopened]
    · simp [lacksLeft_pushAlphanum, hne '(' rfl, hne '|' rfl]
  · exact h.snoc hfeed (level_add_count hsign hallows hopened) (lacksLeft_pushSign_iff hsign)
  · refine h.snoc hfeed ?_ ?_
    · simpa [pushEscape] using hopened
    · simp [pushEscape, lacksLeft, Token.bare]

/-- A character that is a fault is told where it stands. -/
theorem feed_of_faulty (h : Follows before s) (hfaulty : Faulty before behind c cause) :
    s.feed c behind.head? = .error (cause.fault s.position) := by
  cases hfaulty with
  | strayChar letter sign =>
    unfold Scanner.feed
    rw [letter, if_neg Bool.false_ne_true]
    split <;> first | rfl | exact absurd (by decide) sign
  | unmatchedClose balanced =>
    have hopened := h.opened_eq
    exact if_pos (show s.opened = 0 by omega)
  | strayUnion lacks =>
    rw [← h.lacksLeft_iff, ← lacksRight_head?_iff, ← Bool.or_eq_true] at lacks
    exact if_pos lacks
  | escapeAtEnd last =>
    rw [last]
    rfl
  | emptyEscape next letter =>
    rw [next]
    exact if_neg (Bool.eq_false_iff.mp letter)

/-- A character that is told is a fault. -/
theorem isFault_of_feed {fault : ScanFault} (h : Follows before s)
    (hfeed : s.feed c behind.head? = .error fault) : IsFault before c behind := by
  have hopened := h.opened_eq
  unfold Scanner.feed at hfeed
  split at hfeed
  · cases hfeed
  · next letter =>
    rw [Bool.not_eq_true] at letter
    split at hfeed
    · cases hfeed
    · cases hfeed
    · cases hfeed
    · cases hfeed
    · split at hfeed
      · exact ⟨_, .unmatchedClose (by omega)⟩
      · cases hfeed
    · split at hfeed
      · next hsides =>
        rw [Bool.or_eq_true, h.lacksLeft_iff, lacksRight_head?_iff] at hsides
        exact ⟨_, .strayUnion hsides⟩
      · cases hfeed
    · split at hfeed
      · next hnone => exact ⟨_, .escapeAtEnd (List.head?_eq_none_iff.mp hnone)⟩
      · next d hsome =>
        split at hfeed
        · cases hfeed
        · next hd => exact ⟨_, .emptyEscape hsome (Bool.eq_false_iff.mpr hd)⟩
    · refine ⟨_, .strayChar letter ?_⟩
      simp_all

/-- A scanner gets through characters none of which is a fault. -/
theorem exists_feedBefore (h : Follows before s)
    (hnone : Nowhere (fun front c rest => IsFault (before ++ front) c (rest ++ behind)) cs) :
    ∃ s', s.feedBefore behind cs = .ok s' ∧ Follows (before ++ cs) s' := by
  induction cs generalizing before s with
  | nil =>
    rw [List.append_nil]
    exact ⟨s, rfl, h⟩
  | cons c cs ih =>
    rw [nowhere_cons, List.append_nil] at hnone
    obtain ⟨hc, hcs⟩ := hnone
    cases hfeed : s.feed c (cs ++ behind).head? with
    | error fault => exact absurd (h.isFault_of_feed hfeed) hc
    | ok next =>
      have hrest : Nowhere
          (fun front d rest => IsFault (before ++ [c] ++ front) d (rest ++ behind)) cs := by
        simpa using hcs
      obtain ⟨s', hrun, hfollows⟩ := ih (h.feed hfeed) hrest
      refine ⟨s', by rw [feedBefore, hfeed, ok_bind, hrun], ?_⟩
      rwa [List.append_assoc] at hfollows

/-- A scanner that has got through characters follows them. -/
theorem feedBefore (h : Follows before s) (hrun : s.feedBefore behind cs = .ok s') :
    Follows (before ++ cs) s' := by
  induction cs generalizing before s with
  | nil =>
    cases hrun
    rw [List.append_nil]
    exact h
  | cons c cs ih =>
    obtain ⟨next, hnext, hrest⟩ := bind_eq_ok_iff.mp hrun
    have hfollows := ih (h.feed hnext) hrest
    rwa [List.append_assoc] at hfollows

end Follows

end Scanner

/-! ## Patterns -/

/-- What a scanner makes of a backslash is decided between characters: the offset behind it
splits the pattern, and what the scanner looks at is the second part. -/
theorem splits_behind_backslash {s : Scanner} (hp : p.toList = before ++ '\\' :: behind)
    (hrun : Scanner.start.feedBefore ('\\' :: behind) before = .ok s) :
    Text.Splits p (s.position + 1) (.ofList (before ++ ['\\'])) (.ofList behind) := by
  have hfollows := Scanner.follows_start.feedBefore hrun
  rw [List.nil_append] at hfollows
  constructor
  · rw [← String.toList_inj, hp]
    simp
  · rw [hfollows.position_eq, String.ofList_append, String.utf8ByteSize_append]
    rfl
  · have hbefore := hfollows.ascii
    rw [Text.IsAscii, String.toList_ofList] at hbefore ⊢
    exact List.forall_mem_append.mpr ⟨hbefore, List.forall_mem_singleton.mpr (by decide)⟩

theorem scan_eq (hne : p ≠ "") :
    scan p = Scanner.start.feedAll p.toList >>= Scanner.finish :=
  if_neg (mt String.toList_inj.mp hne)

/-- The scanner gets through a pattern none of whose characters is a fault. -/
theorem exists_feedAll (hnone : Nowhere IsFault cs) :
    ∃ s, Scanner.start.feedAll cs = .ok s ∧ s.Follows cs := by
  have hplaces : Nowhere (fun front c rest => IsFault ([] ++ front) c (rest ++ [])) cs := by
    simpa using hnone
  obtain ⟨s, hrun, hfollows⟩ := Scanner.follows_start.exists_feedBefore hplaces
  refine ⟨s, ?_, hfollows⟩
  rw [← List.append_nil cs, Scanner.feedAll_append, hrun]
  rfl

/-- What is told about the characters of a pattern is told by its scan. -/
theorem scan_of_leftmostFault {fault : ScanFault} (hne : p ≠ "")
    (h : LeftmostFault p.toList fault) : scan p = .error fault := by
  cases h with
  | @character before behind c cause first faulty =>
    obtain ⟨s, hrun, hfollows⟩ := Scanner.follows_start.exists_feedBefore first.earlier
    rw [List.nil_append] at hfollows
    rw [scan_eq hne, first.eq, Scanner.feedAll_append, hrun, ok_bind, Scanner.feedAll_cons,
      hfollows.feed_of_faulty faulty, error_bind, error_bind, hfollows.position_eq]
  | unclosed none opened =>
    obtain ⟨s, hrun, hfollows⟩ := exists_feedAll none
    have hleft := hfollows.opened_eq
    rw [scan_eq hne, hrun, ok_bind, Scanner.finish, if_neg (by omega), hfollows.position_eq]

/-- A pattern that nothing is told about is scanned. -/
theorem exists_scan (hne : p ≠ "") (hnone : Nowhere IsFault p.toList)
    (hclosed : p.toList.count '(' ≤ p.toList.count ')') : ∃ ts, scan p = .ok ts := by
  obtain ⟨s, hrun, hfollows⟩ := exists_feedAll hnone
  have hleft := hfollows.opened_eq
  rw [scan_eq hne, hrun, ok_bind, Scanner.finish, if_pos (by omega)]
  exact ⟨_, rfl⟩

/-- Something is told about characters, or none of them is a fault and every group is
closed. -/
theorem leftmostFault_or_nowhere (cs : List Char) :
    (∃ fault, LeftmostFault cs fault) ∨ Nowhere IsFault cs ∧ cs.count '(' ≤ cs.count ')' := by
  rcases nowhere_or_exists_first IsFault cs with hnone | ⟨before, c, behind, hfirst⟩
  · rcases Nat.lt_or_ge (cs.count ')') (cs.count '(') with hopened | hclosed
    · exact .inl ⟨_, .unclosed hnone hopened⟩
    · exact .inr ⟨hnone, hclosed⟩
  · obtain ⟨cause, hfaulty⟩ := hfirst.holds
    exact .inl ⟨_, .character hfirst hfaulty⟩

/-- A scan tells the leftmost fault.  A pattern without a fault whose groups are closed is
scanned.  A fault at a backslash is one of its escape, and every other one of the
character.  The scanner never looks into the middle of a character behind a backslash. -/
theorem scan_leftmost (hne : p ≠ "") :
    (∀ fault, scan p = .error fault ↔ LeftmostFault p.toList fault) ∧
    ((∃ ts, scan p = .ok ts) ↔
      Nowhere IsFault p.toList ∧ p.toList.count '(' ≤ p.toList.count ')') ∧
    (∀ before c behind cause, Faulty before behind c cause →
      cause.kind = if c = '\\' then .invalidEscape else .invalidChar) ∧
    ∀ before behind s, p.toList = before ++ '\\' :: behind →
      Scanner.start.feedBefore ('\\' :: behind) before = .ok s →
        (String.Pos.Raw.mk (s.position + 1)).IsValid p ∧
        Text.Splits p (s.position + 1) (.ofList (before ++ ['\\'])) (.ofList behind) := by
  have htold : ∀ fault, scan p = .error fault → LeftmostFault p.toList fault := by
    intro fault hfault
    rcases leftmostFault_or_nowhere p.toList with ⟨other, hother⟩ | ⟨hnone, hclosed⟩
    · cases hfault.symm.trans (scan_of_leftmostFault hne hother)
      exact hother
    · obtain ⟨ts, hts⟩ := exists_scan hne hnone hclosed
      cases hfault.symm.trans hts
  refine ⟨fun fault => ⟨htold fault, scan_of_leftmostFault hne⟩, ⟨?_, ?_⟩,
    fun _ _ _ _ => Faulty.kind_eq, fun before behind s hp hrun => ?_⟩
  · rintro ⟨ts, hts⟩
    rcases leftmostFault_or_nowhere p.toList with ⟨fault, hfault⟩ | hnothing
    · cases hts.symm.trans (scan_of_leftmostFault hne hfault)
    · exact hnothing
  · rintro ⟨hnone, hclosed⟩
    exact exists_scan hne hnone hclosed
  · have hsplits := splits_behind_backslash hp hrun
    exact ⟨hsplits.isValid, hsplits⟩

/-- An escape that lacks its run, in front of a `|` that lacks its right side.  Every other
fault is told in its own words. -/
theorem scan_leftmost_escape :
    "a(b|\\é|)" ≠ "" ∧
      scan "a(b|\\é|)" = .error ⟨.invalidEscape, "invalid escape sequence", 4⟩ ∧
      LeftmostFault "a(b|\\é|)".toList (ScanCause.emptyEscape.fault 4) ∧
      Nowhere IsFault "a(b)".toList ∧
      LeftmostFault "a&".toList ⟨.invalidChar, "invalid character in pattern", 1⟩ ∧
      LeftmostFault "a)".toList ⟨.invalidChar, "unmatched closing parenthesis", 1⟩ ∧
      LeftmostFault "a||b".toList ⟨.invalidChar, "invalid alternation operator '|'", 2⟩ ∧
      LeftmostFault "a\\".toList
        ⟨.invalidEscape, "invalid escape sequence: pattern ends with '\\'", 1⟩ ∧
      LeftmostFault "(a".toList ⟨.unexpectedEnd, "unmatched opening parenthesis", 2⟩ := by
  have hescape : "a(b|\\é|)" ≠ "" := by decide
  have hgroup : "a(b)" ≠ "" := by decide
  have htold : ∀ (p : String) (fault : ScanFault), p ≠ "" → scan p = .error fault →
      LeftmostFault p.toList fault := fun _ fault hne => ((scan_leftmost hne).1 fault).mp
  exact ⟨hescape, rfl, htold _ _ hescape rfl, (((scan_leftmost hgroup).2.1).mp ⟨_, rfl⟩).1,
    htold _ _ (by decide) rfl, htold _ _ (by decide) rfl, htold _ _ (by decide) rfl,
    htold _ _ (by decide) rfl, htold _ _ (by decide) rfl⟩

end PatternAutomata
