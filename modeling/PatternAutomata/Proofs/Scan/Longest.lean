import PatternAutomata.Proofs.Scan.Cuts
import PatternAutomata.Proofs.Scan.Faults

/-!
# Runs as long as they can be

The scanner lets the run of an escape grow by one character at a time.  The same comes out
if the run is taken at once, as all alphanumeric characters behind the backslash up to the
first that is none (`Scanner.cut`).  Then every other alphanumeric character is a literal,
whatever the newest token is.

The two agree as long as no run can grow (`cutAll_eq_feedAll`).  This is so at first and
behind every token but an escape, and behind an escape no alphanumeric character is left.
-/

namespace PatternAutomata

namespace Scanner

variable {s : Scanner} {c : Char} {cs : List Char}

/-- Takes a backslash and the run of its escape. -/
def pushRun (s : Scanner) (run : List Char) : Scanner :=
  { s with
    tokens := ⟨.escape, String.ofList run, s.position⟩ :: s.tokens
    position := s.position + (String.ofList ('\\' :: run)).utf8ByteSize }

/-- Takes the character `c` and what belongs to it, and gives back what is left of the
characters behind it. -/
def cut (s : Scanner) (c : Char) (cs : List Char) : Except ScanFault (Scanner × List Char) :=
  if c.isAlphanum then .ok (s.push .literal c, cs)
  else if c = '\\' then
    if cs.takeWhile Char.isAlphanum = [] then
      .error ((if cs = [] then ScanCause.escapeAtEnd else .emptyEscape).fault s.position)
    else .ok (s.pushRun (cs.takeWhile Char.isAlphanum), cs.dropWhile Char.isAlphanum)
  else (s.feed c cs.head?).map fun s' => (s', cs)

/-- There are three ways to take a token. -/
theorem cut_eq_ok {s' : Scanner} {left : List Char} (h : s.cut c cs = .ok (s', left)) :
    c.isAlphanum = true ∧ s' = s.push .literal c ∧ left = cs ∨
      (∃ kind : Kind, kind.sign = some c ∧ s' = s.pushSign kind c) ∧ left = cs ∨
      c = '\\' ∧ s' = s.pushRun (cs.takeWhile Char.isAlphanum) ∧
        left = cs.dropWhile Char.isAlphanum := by
  unfold cut at h
  split at h
  · next hc =>
    cases h
    exact .inl ⟨hc, rfl, rfl⟩
  · next hc =>
    split at h
    · next hescape =>
      split at h
      · cases h
      · cases h
        exact .inr (.inr ⟨hescape, rfl, rfl⟩)
    · next hescape =>
      cases hfeed : s.feed c cs.head? with
      | error fault =>
        rw [hfeed] at h
        cases h
      | ok next =>
        rw [hfeed] at h
        cases h
        rcases feed_eq_ok hfeed with ⟨hc', -⟩ | ⟨kind, hsign, -, rfl⟩ | ⟨hescape', -⟩
        · exact absurd hc' hc
        · exact .inr (.inl ⟨⟨kind, hsign, rfl⟩, rfl⟩)
        · exact absurd hescape' hescape

theorem length_le_of_cut {s' : Scanner} {left : List Char} (h : s.cut c cs = .ok (s', left)) :
    left.length ≤ cs.length := by
  rcases cut_eq_ok h with ⟨-, -, rfl⟩ | ⟨-, rfl⟩ | ⟨-, -, rfl⟩
  · exact Nat.le_refl _
  · exact Nat.le_refl _
  · exact (List.dropWhile_suffix _).length_le

/-- Takes all characters of a list, token by token. -/
def cutAll (s : Scanner) : List Char → Except ScanFault Scanner
  | [] => .ok s
  | c :: cs =>
    match _h : s.cut c cs with
    | .ok (s', left) => s'.cutAll left
    | .error fault => .error fault
termination_by cs => cs.length
decreasing_by
  exact Nat.lt_succ_of_le (length_le_of_cut ‹_›)

/-! ## A run grows to its end -/

theorem isAlphanum_head?_dropWhile (h : (cs.dropWhile Char.isAlphanum).head? = some c) :
    c.isAlphanum = false := by
  have hhead := List.head?_dropWhile_not Char.isAlphanum cs
  rw [h] at hhead
  simpa using hhead

/-- The run of an escape grows by all alphanumeric characters that follow. -/
theorem feedAll_run {older : List Token} {run : String} {opened position next : Nat} :
    feedAll ⟨⟨.escape, run, position⟩ :: older, opened, next⟩ cs =
      feedAll ⟨⟨.escape, run ++ String.ofList (cs.takeWhile Char.isAlphanum), position⟩ :: older,
        opened, next + (String.ofList (cs.takeWhile Char.isAlphanum)).utf8ByteSize⟩
        (cs.dropWhile Char.isAlphanum) := by
  induction cs generalizing run next with
  | nil => simp
  | cons c cs ih =>
    cases hc : c.isAlphanum with
    | true =>
      have hrun : run.push c ++ String.ofList (cs.takeWhile Char.isAlphanum) =
          run ++ String.ofList (c :: cs.takeWhile Char.isAlphanum) := by
        rw [← String.toList_inj]
        simp
      rw [feedAll_cons, feed_alphanum hc, ok_bind, pushAlphanum, ih, hrun,
        List.takeWhile_cons_of_pos hc, List.dropWhile_cons_of_pos hc,
        Text.utf8ByteSize_ofList_cons, Nat.add_assoc]
    | false =>
      have hc' : ¬c.isAlphanum = true := by simp [hc]
      rw [List.takeWhile_cons_of_neg hc', List.dropWhile_cons_of_neg hc']
      simp

/-- The run of an escape is the longest alphanumeric text behind the backslash. -/
theorem feedAll_escape (h : cs.takeWhile Char.isAlphanum ≠ []) :
    s.feedAll ('\\' :: cs) =
      (s.pushRun (cs.takeWhile Char.isAlphanum)).feedAll (cs.dropWhile Char.isAlphanum) := by
  cases cs with
  | nil => exact absurd rfl h
  | cons d cs =>
    cases hd : d.isAlphanum with
    | false => simp [hd] at h
    | true =>
      rw [feedAll_cons, List.head?_cons, feed_backslash hd, ok_bind, pushEscape, Token.bare,
        feedAll_run, pushRun, String.empty_append, Text.utf8ByteSize_ofList_cons, Nat.add_assoc]

/-! ## Token by token -/

theorem cutAll_cons (s : Scanner) (c : Char) (cs : List Char) :
    s.cutAll (c :: cs) = s.cut c cs >>= fun next => next.1.cutAll next.2 := by
  rw [cutAll]
  split
  · next hcut => rw [hcut, ok_bind]
  · next hcut => rw [hcut, error_bind]

/-- A backslash that no alphanumeric character follows is a fault. -/
theorem feed_backslash_eq_error (h : cs.takeWhile Char.isAlphanum = []) :
    s.feed '\\' cs.head? = .error
      ((if cs = [] then ScanCause.escapeAtEnd else .emptyEscape).fault s.position) := by
  cases cs with
  | nil => rfl
  | cons d cs =>
    have hd : ¬d.isAlphanum = true := by
      intro hd
      rw [List.takeWhile_cons_of_pos hd] at h
      cases h
    exact if_neg hd

/-- A run that has been taken cannot grow. -/
theorem not_inRun_of_cut {s' : Scanner} {left : List Char} (h : s.cut c cs = .ok (s', left))
    (hleft : StartsAlphanum left) : ¬s'.InRun := by
  rcases cut_eq_ok h with ⟨-, rfl, -⟩ | ⟨⟨kind, hsign, rfl⟩, -⟩ | ⟨-, -, rfl⟩
  · exact not_inRun_of_kind_ne rfl nofun
  · exact not_inRun_pushSign hsign
  · obtain ⟨d, ds, hds, hd⟩ := hleft
    have hfirst : (cs.dropWhile Char.isAlphanum).head? = some d := by rw [hds, List.head?_cons]
    rw [isAlphanum_head?_dropWhile hfirst] at hd
    cases hd

/-- It makes no difference whether one character is taken or one token. -/
theorem cut_bind_feedAll (hready : c.isAlphanum = true → ¬s.InRun) :
    (s.cut c cs >>= fun next => next.1.feedAll next.2) = s.feedAll (c :: cs) := by
  unfold cut
  split
  · next hc =>
    rw [ok_bind, feedAll_cons, feed_alphanum hc, ok_bind,
      pushAlphanum_of_not_inRun (hready hc)]
  · split
    · next hescape =>
      subst hescape
      split
      · next hrun => rw [error_bind, feedAll_cons, feed_backslash_eq_error hrun, error_bind]
      · next hrun => rw [ok_bind, feedAll_escape hrun]
    · rw [feedAll_cons]
      cases s.feed c cs.head? <;> rfl

/-- Where no run can grow, it makes no difference how the characters are taken. -/
theorem cutAll_eq_feedAll (hready : StartsAlphanum cs → ¬s.InRun) :
    s.cutAll cs = s.feedAll cs := by
  induction hn : cs.length using Nat.strong_induction_on generalizing s cs with
  | _ n ih =>
    cases cs with
    | nil => rw [cutAll, feedAll_nil]
    | cons c cs =>
      rw [cutAll_cons, ← cut_bind_feedAll fun hc => hready ⟨c, cs, rfl, hc⟩]
      cases hcut : s.cut c cs with
      | error fault => rfl
      | ok next =>
        have hlt : next.2.length < n := by
          rw [← hn]
          exact Nat.lt_succ_of_le (length_le_of_cut hcut)
        rw [ok_bind, ok_bind]
        exact ih _ hlt (not_inRun_of_cut hcut) rfl

end Scanner

/-- A scan cuts off token after token, and takes for an escape all that its run can hold. -/
theorem scan_eq_cutAll (p : String) (hp : p.toList ≠ []) :
    scan p = Scanner.start.cutAll p.toList >>= Scanner.finish := by
  rw [Scanner.cutAll_eq_feedAll fun _ => Scanner.not_inRun_start, scan, if_neg hp]

end PatternAutomata
