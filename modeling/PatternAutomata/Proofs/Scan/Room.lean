import PatternAutomata.Proofs.Scan.Leftmost

/-!
# Room for the tokens of a pattern

Every token is cut from at least one byte, and the mark of the end needs one more place.  So
the room that is asked for in front of the first character is never outgrown, whatever the
pattern is and wherever the scan gives up (`Scanner.length_feedBefore_le`,
`length_le_of_scan`).

Whether the room is granted is not up to the pattern.  If it is, a scan with room is a scan,
and if it is not, nothing is read (`scanWithin_eq_ok_iff`, `scanWithin_eq_noRoom_iff`).
-/

namespace PatternAutomata

namespace Scanner

variable {s s' : Scanner} {c : Char} {next : Option Char}

/-- The tokens so far fit into the bytes that have been read. -/
def Fits (s : Scanner) : Prop := s.tokens.length ≤ s.position

theorem fits_start : start.Fits := Nat.le_refl 0

theorem length_pushAlphanum_le (s : Scanner) (c : Char) :
    (s.pushAlphanum c).tokens.length ≤ s.tokens.length + 1 := by
  unfold pushAlphanum
  split
  · next heq => simp [heq]
  · exact Nat.le_refl _

/-- A character makes at most one token. -/
theorem length_feed_le (h : s.feed c next = .ok s') :
    s'.tokens.length ≤ s.tokens.length + 1 := by
  rcases feed_eq_ok h with ⟨-, rfl⟩ | ⟨kind, -, -, rfl⟩ | ⟨-, -, rfl⟩
  · exact s.length_pushAlphanum_le c
  · exact Nat.le_refl _
  · exact Nat.le_refl _

theorem Fits.feed (h : s.Fits) (hfeed : s.feed c next = .ok s') : s'.Fits := by
  have hlength := length_feed_le hfeed
  have hposition := (feed_ascii hfeed).2
  have hsize := c.utf8Size_pos
  unfold Fits at h ⊢
  omega

theorem Fits.feedBefore {cs behind : List Char} (h : s.Fits)
    (hfeed : s.feedBefore behind cs = .ok s') : s'.Fits := by
  induction cs generalizing s with
  | nil =>
    cases hfeed
    exact h
  | cons c cs ih =>
    obtain ⟨next, hfirst, hrest⟩ := bind_eq_ok_iff.mp hfeed
    exact ih (h.feed hfirst) hrest

end Scanner

variable {grants : Nat → Bool} {p : String} {ts : List Token} {fault : ScanFault}

/-- What a scanner holds between two characters of a pattern leaves a place for the mark of
the end. -/
theorem Scanner.length_feedBefore_le {s : Scanner} {before behind : List Char}
    (hp : p.toList = before ++ behind) (hrun : start.feedBefore behind before = .ok s) :
    s.tokens.length + 1 ≤ p.utf8ByteSize + 1 := by
  have hfits : s.tokens.length ≤ s.position := fits_start.feedBefore hrun
  have hposition : s.position = (String.ofList before).utf8ByteSize :=
    (follows_start.feedBefore hrun).position_eq
  have hwhole : p = String.ofList before ++ String.ofList behind := by
    rw [← String.ofList_append, ← hp, String.ofList_toList]
  have hbytes : p.utf8ByteSize =
      (String.ofList before).utf8ByteSize + (String.ofList behind).utf8ByteSize := by
    rw [hwhole, String.utf8ByteSize_append]
  omega

/-- The tokens of a pattern fit into the room that is asked for. -/
theorem length_le_of_scan (h : scan p = .ok ts) : ts.length ≤ p.utf8ByteSize + 1 := by
  obtain ⟨s, -, hfeed, -, rfl⟩ := scan_run h
  have hrun : Scanner.start.feedBefore [] p.toList = .ok s := by
    have happend := Scanner.feedAll_append Scanner.start p.toList []
    rw [List.append_nil, hfeed] at happend
    obtain ⟨s', hrun, hnil⟩ := bind_eq_ok_iff.mp happend.symm
    cases hnil
    exact hrun
  have hlength := Scanner.length_feedBefore_le (List.append_nil _).symm hrun
  simpa using hlength

/-- Only the memory tells that there is no room. -/
theorem kind_ne_memory_of_scan (h : scan p = .error fault) : fault.kind ≠ .memory := by
  obtain ⟨cause, position, rfl⟩ := scan_eq_error h
  cases cause with
  | emptyPattern | strayChar | unmatchedClose | strayUnion | escapeAtEnd | emptyEscape
    | unmatchedOpen => exact nofun

/-- A scan with room gives tokens if the room is granted, and then those of a scan. -/
theorem scanWithin_eq_ok_iff :
    scanWithin grants p = .ok ts ↔ grants (p.utf8ByteSize + 1) = true ∧ scan p = .ok ts := by
  unfold scanWithin
  split
  · next hempty => simp [scan, hempty]
  · split
    · next hgrants => simp [hgrants]
    · next hgrants => simp [hgrants]

/-- A scan with room tells that there is none if and only if the pattern has a character and
the room is refused. -/
theorem scanWithin_eq_noRoom_iff (hkind : fault.kind = .memory) :
    scanWithin grants p = .error fault ↔
      fault = noRoom ∧ p ≠ "" ∧ grants (p.utf8ByteSize + 1) = false := by
  have hscan : scan p ≠ .error fault := fun h => kind_ne_memory_of_scan h hkind
  unfold scanWithin
  split
  · next hempty =>
    have hp : p = "" := String.toList_inj.mp hempty
    have hne : ScanCause.emptyPattern.fault 0 ≠ fault := by
      rintro rfl
      cases hkind
    simp [hp, hne]
  · next hne =>
    have hp : p ≠ "" := mt String.toList_inj.mpr hne
    split
    · next hgrants => simp [hscan, hgrants]
    · next hgrants => simp [hgrants, hp, eq_comm]

end PatternAutomata
