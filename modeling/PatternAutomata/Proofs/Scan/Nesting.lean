import PatternAutomata.Proofs.Rpn.Nesting
import PatternAutomata.Proofs.Scan.Cuts

/-!
# Scans nest

The scanner counts open groups, and it counts them as they are counted in the
tokens that it gives.  So the tokens of a scan nest (`nesting_of_scan`), and they
are put into postorder without a fault.

Groups around nothing pass a scan, since the scanner does not look for operands.
They are told from the tokens as well as from the text (`hollow_iff_of_scan`).
-/

namespace PatternAutomata

namespace Scanner

variable {s s' : Scanner} {t : Token} {c : Char} {next : Option Char} {cs : List Char}

/-! ## Counting groups -/

/-- The number of open groups is that of the tokens so far. -/
def Counts (s : Scanner) : Prop :=
  nesting 0 (s.tokens.reverse.map Token.kind) = some s.opened

theorem counts_start : start.Counts := rfl

/-- A new token is counted. -/
theorem Counts.push (h : s.Counts) (htokens : s'.tokens = t :: s.tokens)
    (hnest : t.kind.nest s.opened = some s'.opened) : s'.Counts := by
  rw [Counts, htokens, List.reverse_cons, List.map_append, List.map_singleton,
    nesting_append_singleton, h, Option.bind_some, hnest]

theorem Counts.pushAlphanum (h : s.Counts) (c : Char) : (s.pushAlphanum c).Counts := by
  by_cases hrun : s.InRun
  · -- The newest token grows, and its kind stays.
    obtain ⟨run, position, older, heq⟩ := hrun
    have htokens : (s.pushAlphanum c).tokens = ⟨.escape, run.push c, position⟩ :: older := by
      simp [Scanner.pushAlphanum, heq]
    have hopened : (s.pushAlphanum c).opened = s.opened := by
      simp [Scanner.pushAlphanum, heq]
    rw [Counts, heq] at h
    rw [Counts, htokens, hopened, ← h]
    simp
  · rw [pushAlphanum_of_not_inRun hrun]
    exact h.push rfl rfl

/-- An allowed sign has a place where it stands. -/
theorem nest_of_sign {kind : Kind} (hsign : kind.sign = some c) (hallows : s.Allows next kind) :
    kind.nest s.opened = some (kind.level s.opened) := by
  cases kind with
  | star | plus | question | union | openParen => rfl
  | closeParen => exact if_neg hallows
  | literal | concat | escape | epsilon | endMark => cases hsign

theorem Counts.feed (h : s.Counts) (hfeed : s.feed c next = .ok s') : s'.Counts := by
  rcases feed_eq_ok hfeed with ⟨-, rfl⟩ | ⟨kind, hsign, hallows, rfl⟩ | ⟨-, -, rfl⟩
  · exact h.pushAlphanum c
  · exact h.push rfl (nest_of_sign hsign hallows)
  · exact h.push rfl rfl

theorem Counts.feedAll (h : s.Counts) (hfeed : s.feedAll cs = .ok s') : s'.Counts := by
  induction cs generalizing s with
  | nil =>
    cases hfeed
    exact h
  | cons c cs ih =>
    rw [feedAll_cons, bind_eq_ok_iff] at hfeed
    obtain ⟨next, hfirst, hrest⟩ := hfeed
    exact ih (h.feed hfirst) hrest

/-! ## Groups around nothing -/

/-- Groups around nothing are cut into their parentheses. -/
theorem cuts_hollow (n : Nat) (hready : ¬s.InRun) :
    ∃ ts s', s.Cuts (List.replicate n '(' ++ List.replicate n ')') ts s' ∧
      ts.map Token.kind = Rpn.hollow n n := by
  induction n generalizing s with
  | zero => exact ⟨[], s, ⟨fun _ => rfl, rfl, rfl, fun hrun => absurd hrun hready⟩, rfl⟩
  | succ n ih =>
    obtain ⟨ts, s', hcuts, hkinds⟩ := @ih (s.pushSign .openParen '(') (not_inRun_pushSign rfl)
    have htext : List.replicate (n + 1) '(' ++ List.replicate (n + 1) ')' =
        '(' :: (List.replicate n '(' ++ List.replicate n ')' ++ [')']) := by
      rw [List.replicate_succ, List.replicate_succ', List.cons_append, List.append_assoc]
    rw [htext]
    refine ⟨_, _, cuts_group hcuts, ?_⟩
    rw [List.map_cons, List.map_append, hkinds, Rpn.hollow, Rpn.hollow, List.replicate_succ,
      List.replicate_succ', List.cons_append, List.append_assoc]
    rfl

end Scanner

variable {p : String} {ts : List Token}

/-- The body of a scan is what the scanner has cut, and it nests. -/
theorem nesting_of_scan (h : scan p = .ok ts) :
    nesting 0 ((Rpn.body ts).map Token.kind) = some 0 := by
  obtain ⟨s, -, hfeed, hopened, rfl⟩ := scan_run h
  obtain ⟨us, position, heq, hlexemes, -⟩ := scan_eq_ok h
  obtain ⟨hus, -⟩ := List.append_inj' heq rfl
  rw [hus, body_append_endMark hlexemes, ← hus]
  have hcounts := Scanner.counts_start.feedAll hfeed
  rwa [Scanner.Counts, hopened] at hcounts

/-- Tokens of signs spell these signs. -/
theorem spelling_of_signs (hlexemes : ∀ t ∈ ts, t.IsLexeme)
    (hsigns : ∀ k ∈ ts.map Token.kind, k.sign.isSome = true) :
    spelling ts = (ts.map Token.kind).filterMap Kind.sign := by
  induction ts with
  | nil => rfl
  | cons t ts ih =>
    rw [List.map_cons, List.forall_mem_cons] at hsigns
    rw [List.forall_mem_cons] at hlexemes
    obtain ⟨c, hc⟩ := Option.isSome_iff_exists.mp hsigns.1
    rw [spelling_cons, hlexemes.1.text_eq_of_sign rfl hc, List.map_cons,
      List.filterMap_cons_some hc, ih hlexemes.2 hsigns.2]
    rfl

/-- Groups around nothing are scanned into their parentheses. -/
theorem scan_hollow {n : Nat} (h : p.toList = List.replicate n '(' ++ List.replicate n ')')
    (hne : p.toList ≠ []) :
    ∃ us position, scan p = .ok (us ++ [Token.bare .endMark position]) ∧
      us.map Token.kind = Rpn.hollow n n := by
  obtain ⟨us, s, hcuts, hkinds⟩ := Scanner.cuts_hollow n Scanner.not_inRun_start
  rw [← h] at hcuts
  exact ⟨us, s.position, scan_of_cuts hcuts hne, hkinds⟩

/-- The tokens of a scan are groups around nothing if and only if the pattern is. -/
theorem hollow_iff_of_scan (h : scan p = .ok ts) (n : Nat) :
    (Rpn.body ts).map Token.kind = Rpn.hollow n n ↔
      p.toList = List.replicate n '(' ++ List.replicate n ')' := by
  obtain ⟨us, position, rfl, hlexemes, hspelling⟩ := scan_eq_ok h
  rw [body_append_endMark hlexemes]
  constructor
  · intro hkinds
    have hsigns : ∀ k ∈ us.map Token.kind, k.sign.isSome = true := by
      intro k hk
      rw [hkinds, Rpn.hollow, List.mem_append, List.mem_replicate, List.mem_replicate] at hk
      rcases hk with ⟨-, rfl⟩ | ⟨-, rfl⟩ <;> rfl
    have hopen : Kind.openParen.sign = some '(' := rfl
    have hclose : Kind.closeParen.sign = some ')' := rfl
    rw [← hspelling, spelling_of_signs hlexemes hsigns, hkinds, Rpn.hollow, List.filterMap_append,
      List.filterMap_replicate_of_some hopen, List.filterMap_replicate_of_some hclose]
  · intro htext
    obtain ⟨-, hne, -⟩ := scan_run h
    obtain ⟨vs, position', hscan, hkinds⟩ := scan_hollow htext hne
    rw [h] at hscan
    injection hscan with hscan
    obtain ⟨rfl, -⟩ := List.append_inj' hscan rfl
    exact hkinds

end PatternAutomata
