import PatternAutomata.Scan

/-!
# What the scanner can do with a character

There are three things a character can do.  An alphanumeric character makes a run
longer or becomes a literal.  A sign becomes a token of its kind, if it is allowed
where it stands.  A backslash in front of an alphanumeric character becomes an
escape whose run is still to come.  Every other character is a fault.

`feed_eq_ok` says that there is nothing else.  The other lemmas say that each of
the three does come out well.
-/

namespace PatternAutomata

/-- The character that a token of a kind is cut from, for kinds with a single
one. -/
def Kind.sign : Kind → Option Char
  | star => some '*'
  | plus => some '+'
  | question => some '?'
  | openParen => some '('
  | closeParen => some ')'
  | union => some '|'
  | literal | concat | escape | epsilon | endMark => none

/-- The number of open groups behind a token of a kind. -/
def Kind.level (opened : Nat) : Kind → Nat
  | openParen => opened + 1
  | closeParen => opened - 1
  | _ => opened

theorem Kind.sign_of_isOperand {k : Kind} (h : k.isOperand = true) : k.sign = none := by
  cases k <;> first | rfl | cases h

theorem Kind.sign_inj {k l : Kind} {c : Char} (h : k.sign = some c) (h' : l.sign = some c) :
    k = l := by
  cases k <;> cases h <;> cases l <;> first | rfl | cases h'

theorem Kind.isAlphanum_of_sign {k : Kind} {c : Char} (h : k.sign = some c) :
    c.isAlphanum = false := by
  cases k <;> cases h <;> rfl

namespace Scanner

variable {s s' : Scanner} {c : Char} {next : Option Char} {kind : Kind}

/-- A sign is allowed where the scanner stands. -/
def Allows (s : Scanner) (next : Option Char) : Kind → Prop
  | .closeParen => s.opened ≠ 0
  | .union => s.lacksLeft = false ∧ lacksRight next = false
  | _ => True

/-- The newest token is an escape, so its run can grow. -/
def InRun (s : Scanner) : Prop := ∃ run position older, s.tokens = ⟨.escape, run, position⟩ :: older

/-- Takes a sign. -/
def pushSign (s : Scanner) (kind : Kind) (c : Char) : Scanner :=
  { s.push kind c with opened := kind.level s.opened }

theorem pushAlphanum_of_not_inRun (h : ¬s.InRun) (c : Char) :
    s.pushAlphanum c = s.push .literal c := by
  unfold pushAlphanum
  split
  · next run position older heq => exact absurd ⟨run, position, older, heq⟩ h
  · rfl

theorem feed_alphanum (h : c.isAlphanum = true) (s : Scanner) (next : Option Char) :
    s.feed c next = .ok (s.pushAlphanum c) := by
  unfold feed
  rw [if_pos h]

theorem feed_sign (h : kind.sign = some c) (hallows : s.Allows next kind) :
    s.feed c next = .ok (s.pushSign kind c) := by
  cases kind with
  | star | plus | question | openParen =>
    cases h
    rfl
  | closeParen =>
    cases h
    exact if_neg hallows
  | union =>
    cases h
    change (if s.lacksLeft || lacksRight next then Except.error _ else Except.ok _) = _
    rw [hallows.1, hallows.2]
    rfl
  | _ => cases h

theorem feed_backslash (h : c.isAlphanum = true) (s : Scanner) :
    s.feed '\\' (some c) = .ok s.pushEscape := if_pos h

/-- There is nothing else that comes out well. -/
theorem feed_eq_ok (h : s.feed c next = .ok s') :
    c.isAlphanum = true ∧ s' = s.pushAlphanum c ∨
      (∃ kind : Kind, kind.sign = some c ∧ s.Allows next kind ∧ s' = s.pushSign kind c) ∨
      c = '\\' ∧ (∃ d, next = some d ∧ d.isAlphanum = true) ∧ s' = s.pushEscape := by
  cases halnum : c.isAlphanum with
  | true =>
    rw [feed_alphanum halnum] at h
    cases h
    exact .inl ⟨rfl, rfl⟩
  | false =>
    refine .inr ?_
    unfold feed at h
    rw [halnum, if_neg Bool.false_ne_true] at h
    split at h
    · cases h
      exact .inl ⟨.star, rfl, trivial, rfl⟩
    · cases h
      exact .inl ⟨.plus, rfl, trivial, rfl⟩
    · cases h
      exact .inl ⟨.question, rfl, trivial, rfl⟩
    · cases h
      exact .inl ⟨.openParen, rfl, trivial, rfl⟩
    · split at h
      · cases h
      · next hopened =>
        cases h
        exact .inl ⟨.closeParen, rfl, hopened, rfl⟩
    · split at h
      · cases h
      · next hsides =>
        cases h
        rw [Bool.not_eq_true, Bool.or_eq_false_iff] at hsides
        exact .inl ⟨.union, rfl, hsides, rfl⟩
    · split at h
      · cases h
      · next d =>
        split at h
        · next hd =>
          cases h
          exact .inr ⟨rfl, ⟨d, rfl, hd⟩, rfl⟩
        · cases h
    · cases h

/-- Every fault of a character has a cause, and is told where the character stands.  The
cause is not that the pattern has ended. -/
theorem feed_eq_error {fault : ScanFault} (h : s.feed c next = .error fault) :
    ∃ cause : ScanCause, cause.kind ≠ .unexpectedEnd ∧ fault = cause.fault s.position := by
  unfold feed at h
  repeat' split at h
  all_goals cases h
  all_goals refine ⟨_, ?_, rfl⟩
  all_goals exact nofun

theorem feedAll_eq_error {cs : List Char} {fault : ScanFault} (h : s.feedAll cs = .error fault) :
    ∃ (cause : ScanCause) (position : Nat), fault = cause.fault position := by
  induction cs generalizing s with
  | nil => cases h
  | cons c cs ih =>
    rw [feedAll] at h
    split at h
    · exact ih h
    · next hfeed =>
      cases h
      obtain ⟨cause, -, rfl⟩ := feed_eq_error hfeed
      exact ⟨cause, _, rfl⟩

end Scanner

/-- Every fault of a scan has a cause. -/
theorem scan_eq_error {p : String} {fault : ScanFault} (h : scan p = .error fault) :
    ∃ (cause : ScanCause) (position : Nat), fault = cause.fault position := by
  unfold scan at h
  split at h
  · cases h
    exact ⟨_, _, rfl⟩
  · cases hfeed : Scanner.start.feedAll p.toList with
    | error fault' =>
      rw [hfeed] at h
      cases h
      exact Scanner.feedAll_eq_error hfeed
    | ok s =>
      rw [hfeed, ok_bind, Scanner.finish] at h
      split at h
      · cases h
      · cases h
        exact ⟨_, _, rfl⟩

end PatternAutomata
