import PatternAutomata.Proofs.Scan.Inverse
import PatternAutomata.Proofs.Text.Offsets

/-!
# Where a scan gives up

The scanner takes ASCII characters only, and it counts the bytes of what it takes
(`Scanner.feed_ascii`).  So it gives up between two characters, and what stands in front
of its fault is ASCII (`splits_of_scan_error`).  Only an unmatched group is told at the
end of the pattern.  If it does not give up at all, the whole pattern is ASCII, and it
splits in front of every token (`splits_of_scan`).
-/

namespace PatternAutomata

theorem isAscii_of_isAlphanum {c : Char} (h : c.isAlphanum = true) : c.toNat < 128 := by
  have hle : ∀ last : Char, c.val ≤ last.val → last.toNat < 128 → c.toNat < 128 :=
    fun _ hc hlast => Nat.lt_of_le_of_lt (UInt32.le_iff_toNat_le.mp hc) hlast
  rcases Bool.or_eq_true_iff.mp h with halpha | hdigit
  · rcases Bool.or_eq_true_iff.mp halpha with hupper | hlower
    · exact hle 'Z' (of_decide_eq_true hupper).2 (by decide)
    · exact hle 'z' (of_decide_eq_true (Bool.and_eq_true_iff.mp hlower).2) (by decide)
  · exact hle '9' (of_decide_eq_true (Bool.and_eq_true_iff.mp hdigit).2) (by decide)

theorem Kind.isAscii_of_sign {k : Kind} {c : Char} (h : k.sign = some c) : c.toNat < 128 := by
  cases k <;> cases h <;> decide

namespace Scanner

variable {s s' : Scanner} {c : Char} {next : Option Char} {cs : List Char} {fault : ScanFault}

theorem position_pushAlphanum (s : Scanner) (c : Char) :
    (s.pushAlphanum c).position = s.position + c.utf8Size := by
  unfold pushAlphanum
  split <;> rfl

/-- The scanner takes ASCII characters, and stands behind what it has taken. -/
theorem feed_ascii (h : s.feed c next = .ok s') :
    c.toNat < 128 ∧ s'.position = s.position + c.utf8Size := by
  rcases feed_eq_ok h with ⟨hc, rfl⟩ | ⟨kind, hsign, -, rfl⟩ | ⟨rfl, -, rfl⟩
  · exact ⟨isAscii_of_isAlphanum hc, s.position_pushAlphanum c⟩
  · exact ⟨Kind.isAscii_of_sign hsign, rfl⟩
  · exact ⟨by decide, rfl⟩

theorem feedAll_ascii (h : s.feedAll cs = .ok s') :
    (∀ c ∈ cs, c.toNat < 128) ∧ s'.position = s.position + (String.ofList cs).utf8ByteSize := by
  induction cs generalizing s with
  | nil =>
    cases h
    exact ⟨List.forall_mem_nil _, rfl⟩
  | cons c cs ih =>
    rw [feedAll_cons, bind_eq_ok_iff] at h
    obtain ⟨taken, hfirst, hrest⟩ := h
    obtain ⟨hc, hposition⟩ := feed_ascii hfirst
    obtain ⟨hcs, hend⟩ := ih hrest
    refine ⟨List.forall_mem_cons.mpr ⟨hc, hcs⟩, ?_⟩
    rw [hend, hposition, Text.utf8ByteSize_ofList_cons, Nat.add_assoc]

/-- The scanner gives up at a character behind ASCII characters. -/
theorem feedAll_error_ascii (h : s.feedAll cs = .error fault) :
    ∃ before c behind, cs = before ++ c :: behind ∧ (∀ d ∈ before, d.toNat < 128) ∧
      fault.position = s.position + (String.ofList before).utf8ByteSize ∧
      fault.kind ≠ .unexpectedEnd := by
  induction cs generalizing s with
  | nil => cases h
  | cons c cs ih =>
    rw [feedAll] at h
    split at h
    · next taken hfirst =>
      obtain ⟨hc, hposition⟩ := feed_ascii hfirst
      obtain ⟨before, d, behind, rfl, hbefore, hfault, hkind⟩ := ih h
      refine ⟨c :: before, d, behind, rfl, List.forall_mem_cons.mpr ⟨hc, hbefore⟩, ?_, hkind⟩
      rw [hfault, hposition, Text.utf8ByteSize_ofList_cons, Nat.add_assoc]
    · next hrefused =>
      cases h
      obtain ⟨cause, hkind, rfl⟩ := feed_eq_error hrefused
      exact ⟨[], c, cs, rfl, List.forall_mem_nil _, rfl, hkind⟩

end Scanner

variable {p : String} {fault : ScanFault} {ts : List Token} {t : Token}

/-- A scan gives up behind ASCII characters, and at the end of the pattern only if a group
is open or there is no pattern. -/
theorem splits_of_scan_error (h : scan p = .error fault) :
    ∃ before behind, Text.Splits p fault.position before behind ∧
      (behind = "" ↔ p = "" ∨ fault.kind = .unexpectedEnd) := by
  unfold scan at h
  split at h
  · next hnil =>
    cases h
    have hempty : p = "" := String.toList_inj.mp hnil
    exact ⟨"", "", ⟨hempty, rfl, nofun⟩, iff_of_true rfl (.inl hempty)⟩
  · next hne =>
    have hp : p ≠ "" := mt String.toList_inj.mpr hne
    cases hfeed : Scanner.start.feedAll p.toList with
    | error fault' =>
      rw [hfeed] at h
      cases h
      obtain ⟨before, c, behind, htext, hascii, hposition, hkind⟩ :=
        Scanner.feedAll_error_ascii hfeed
      refine ⟨.ofList before, .ofList (c :: behind), ⟨?_, ?_, ?_⟩, ?_⟩
      · rw [← String.toList_inj, htext]
        simp
      · exact hposition.trans (Nat.zero_add _)
      · rwa [Text.IsAscii, String.toList_ofList]
      · refine iff_of_false (fun hnil => ?_) (not_or.mpr ⟨hp, hkind⟩)
        rw [← String.toList_inj, String.toList_ofList] at hnil
        cases hnil
    | ok s =>
      rw [hfeed, ok_bind, Scanner.finish] at h
      obtain ⟨hascii, hposition⟩ := Scanner.feedAll_ascii hfeed
      split at h
      · cases h
      · cases h
        refine ⟨p, "", ⟨String.append_empty.symm, ?_, hascii⟩, iff_of_true rfl (.inr rfl)⟩
        rw [String.ofList_toList] at hposition
        exact hposition.trans (Nat.zero_add _)

/-- All of a pattern that is scanned is ASCII, and it splits in front of every token. -/
theorem splits_of_scan (h : scan p = .ok ts) (ht : t ∈ Rpn.body ts) :
    ∃ before behind, Text.Splits p t.position before (t.text ++ behind) := by
  obtain ⟨s, -, hfeed, -, -⟩ := scan_run h
  obtain ⟨hascii, -⟩ := Scanner.feedAll_ascii hfeed
  obtain ⟨hwritten, hplaced, -⟩ := body_of_scan h
  obtain ⟨us, vs, hbody⟩ := List.append_of_mem ht
  have htext : p = written us ++ (t.text ++ written vs) := by
    rw [← hwritten, hbody, ← written_cons, written_append]
  refine ⟨written us, written vs, htext, hplaced us t vs hbody, fun c hc => hascii c ?_⟩
  rw [htext, String.toList_append]
  exact List.mem_append_left _ hc

end PatternAutomata
