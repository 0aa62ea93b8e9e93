import Mathlib.Algebra.BigOperators.Group.List.Basic
import Mathlib.Algebra.Ring.Int.Defs
import PatternAutomata.Expr.Derivation
import PatternAutomata.Proofs.Rpn.Nesting

/-!
# The surplus of a postorder

In postorder an operand adds an expression, a binary operator takes one away, and
a postfix operator changes nothing.  So a list of tokens has a surplus, and a
postorder that spells an expression has surplus one (`surplus_of_ofRpn?`).

A yard keeps the surplus of all it has taken, silent concatenations included.  In
every group at most one expression is left over.  It is one if and only if the
tokens of the group are derived from the grammar: a token that stands where it
must not stand costs a concatenation or an operand that nothing makes up for.
`Level` says this of the tokens of one group so far, and `Nested` of a stream in
which groups are still open.

`derives_of_surplus` is the result: a stream whose postorder has surplus one is
derived from the grammar.
-/

namespace PatternAutomata

/-! ## Surplus -/

/-- By how many expressions a token of this kind changes a stack of expressions. -/
def Kind.surplus : Kind → Int
  | literal | escape => 1
  | union | concat => -1
  | star | plus | question | openParen | closeParen | epsilon | endMark => 0

/-- By how many expressions the tokens change a stack of expressions. -/
def surplus (ts : List Token) : Int := (ts.map fun t => t.kind.surplus).sum

@[simp] theorem surplus_nil : surplus [] = 0 := rfl

@[simp] theorem surplus_cons (t : Token) (ts : List Token) :
    surplus (t :: ts) = t.kind.surplus + surplus ts := by
  simp [surplus]

@[simp] theorem surplus_append (ts us : List Token) :
    surplus (ts ++ us) = surplus ts + surplus us := by
  simp [surplus]

theorem surplus_perm {ts us : List Token} (h : ts.Perm us) : surplus ts = surplus us :=
  (h.map _).sum_eq

/-- A token that postorder has no place for changes nothing. -/
theorem Kind.surplus_of_isStray {k : Kind} (h : k.isStray = true) : k.surplus = 0 := by
  cases k with
  | openParen | closeParen | epsilon | endMark => rfl
  | _ => cases h

namespace Expr

theorem length_apply {stack stack' : List Expr} {t : Token} (h : apply stack t = some stack') :
    (stack'.length : Int) = stack.length + t.kind.surplus := by
  obtain ⟨kind, value, position⟩ := t
  cases kind with
  | literal | escape =>
    cases h
    simp [Kind.surplus]
  | star | plus | question =>
    cases stack with
    | nil => cases h
    | cons inner rest =>
      cases h
      simp [Kind.surplus]
  | union | concat =>
    match stack, h with
    | upper :: lower :: rest, h =>
      cases h
      simp [Kind.surplus]
  | openParen | closeParen | epsilon | endMark =>
    cases h
    simp [Kind.surplus]

theorem length_foldlM_apply {ts : List Token} {stack stack' : List Expr}
    (h : ts.foldlM apply stack = some stack') :
    (stack'.length : Int) = stack.length + surplus ts := by
  induction ts generalizing stack with
  | nil =>
    cases h
    simp
  | cons t ts ih =>
    rw [List.foldlM_cons, Option.bind_eq_bind, Option.bind_eq_some_iff] at h
    obtain ⟨next, hnext, hrest⟩ := h
    rw [ih hrest, length_apply hnext, surplus_cons, Int.add_assoc]

/-- A postorder that spells an expression has surplus one. -/
theorem surplus_of_ofRpn? {rpn : List Token} {e : Expr} (h : ofRpn? rpn = some e) :
    surplus rpn = 1 := by
  unfold ofRpn? at h
  split at h
  · next stack =>
    have hlength := length_foldlM_apply stack
    simp only [List.length_cons, List.length_nil] at hlength
    omega
  · cases h

end Expr

/-! ## Longer derivations -/

namespace Derives

variable {rank : Rank} {ts us : List Token} {d e : Expr} {t : Token}

/-- A postfix operator applies to the last factor. -/
theorem exists_applied (h : Derives rank ts e) (hrank : rank ≠ .unit)
    (kind : t.kind.isPostfix = true) : ∃ d, Derives rank (ts ++ [t]) d := by
  have hfactor : ∀ {us f}, Derives .factor us f → ∃ d, Derives .factor (us ++ [t]) d := by
    intro us f inner
    cases hkind : t.kind with
    | star => exact ⟨_, .star inner hkind⟩
    | plus => exact ⟨_, .plus inner hkind⟩
    | question => exact ⟨_, .question inner hkind⟩
    | _ =>
      rw [hkind] at kind
      cases kind
  induction h with
  | operand | group => exact absurd rfl hrank
  | ofUnit inner => exact hfactor (.ofUnit inner)
  | star inner kind => exact hfactor (.star inner kind)
  | plus inner kind => exact hfactor (.plus inner kind)
  | question inner kind => exact hfactor (.question inner kind)
  | ofFactor _ ih =>
    obtain ⟨d, hd⟩ := ih nofun
    exact ⟨d, .ofFactor hd⟩
  | ofSequence _ ih =>
    obtain ⟨d, hd⟩ := ih nofun
    exact ⟨d, .ofSequence hd⟩
  | juxtapose lower _ _ ih =>
    obtain ⟨d, hd⟩ := ih nofun
    rw [List.append_assoc]
    exact ⟨_, .juxtapose lower hd⟩
  | concat lower kind _ _ ih =>
    obtain ⟨d, hd⟩ := ih nofun
    rw [List.append_assoc]
    exact ⟨_, .concat lower kind hd⟩
  | union lower kind _ _ ih =>
    obtain ⟨d, hd⟩ := ih nofun
    rw [List.append_assoc]
    exact ⟨_, .union lower kind hd⟩

/-- What stands behind a choice stands behind its last sequence. -/
theorem exists_append (h : Derives .choice ts e)
    (hsequence : ∀ {vs f}, Derives .sequence vs f → ∃ d, Derives .sequence (vs ++ us) d) :
    ∃ d, Derives .choice (ts ++ us) d := by
  cases h with
  | ofSequence inner =>
    obtain ⟨d, hd⟩ := hsequence inner
    exact ⟨d, .ofSequence hd⟩
  | union lower kind upper =>
    obtain ⟨d, hd⟩ := hsequence upper
    rw [List.append_assoc]
    exact ⟨_, .union lower kind hd⟩

/-- A unit behind a choice becomes the last factor of its last sequence. -/
theorem exists_append_unit (h : Derives .choice ts e) (hunit : Derives .unit us d) :
    ∃ f, Derives .choice (ts ++ us) f := by
  refine h.exists_append fun lower => ?_
  cases us with
  | nil => exact absurd rfl hunit.ne_nil
  | cons u us => exact ⟨_, .juxtapose lower (.ofUnit hunit)⟩

/-- A unit behind a choice and a binary operator makes a choice again. -/
theorem exists_binary (h : Derives .choice ts e) (kind : t.kind = .union ∨ t.kind = .concat)
    (hunit : Derives .unit us d) : ∃ f, Derives .choice (ts ++ [t] ++ us) f := by
  rw [List.append_assoc]
  rcases kind with kind | kind
  · exact ⟨_, .union h kind (.ofFactor (.ofUnit hunit))⟩
  · exact h.exists_append fun lower => ⟨_, .concat lower kind (.ofUnit hunit)⟩

end Derives

namespace Rpn

/-! ## One group -/

/-- What stands last in a group. -/
inductive Edge where
  /-- Nothing stands in the group yet. -/
  | start
  /-- The end of an operand. -/
  | operand
  /-- An operator that needs a right operand. -/
  | operator
deriving DecidableEq

namespace Edge

/-- The edge that a token leaves behind. -/
def ofKind (k : Kind) : Edge :=
  if k.endsOperand then .operand else if k = .openParen then .start else .operator

/-- The edge in front of the next token. -/
def ofPrevious (previous : Option Kind) : Edge := (previous.map ofKind).getD .start

/-- What a silent concatenation with the next operand costs. -/
def cost : Edge → Int
  | start | operator => 0
  | operand => 1

end Edge

/-- Every unit behind the tokens completes them to a choice. -/
def AwaitsUnit (ts : List Token) : Prop :=
  ∀ {us : List Token} {d : Expr}, Derives .unit us d → ∃ e, Derives .choice (ts ++ us) e

/-- The surplus of the tokens of a group is bounded, and if it reaches its bound
the tokens are derived from the grammar as far as they go. -/
def Level : Edge → List Token → Int → Prop
  | .start, ts, n => ts = [] ∧ n = 0
  | .operand, ts, n => n ≤ 1 ∧ (n = 1 → ∃ e, Derives .choice ts e)
  | .operator, ts, n => n ≤ 0 ∧ (n = 0 → AwaitsUnit ts)

namespace Level

variable {edge : Edge} {ts us : List Token} {n m : Int} {t : Token}

/-- At most one expression is left over in a group, and only in a group that is
derived. -/
theorem le_one (h : Level edge ts n) : n ≤ 1 ∧ (n = 1 → ∃ e, Derives .choice ts e) := by
  cases edge with
  | operand => exact h
  | start =>
    obtain ⟨rfl, rfl⟩ := h
    exact ⟨by decide, nofun⟩
  | operator => exact ⟨by have := h.1; omega, fun hn => by have := h.1; omega⟩

/-- In front of an operand nothing is left over. -/
theorem le_cost (h : Level edge ts n) : n ≤ edge.cost ∧ (n = edge.cost → AwaitsUnit ts) := by
  cases edge with
  | start =>
    obtain ⟨rfl, rfl⟩ := h
    exact ⟨by decide, fun _ _ _ hunit => ⟨_, .ofSequence (.ofFactor (.ofUnit hunit))⟩⟩
  | operand =>
    refine ⟨h.1, fun hn us d hunit => ?_⟩
    obtain ⟨e, he⟩ := h.2 hn
    exact he.exists_append_unit hunit
  | operator => exact h

theorem unit (h : Level edge ts n) (hm : m ≤ 1) (hunit : m = 1 → ∃ e, Derives .unit us e) :
    Level .operand (ts ++ us) (n + (m - edge.cost)) := by
  obtain ⟨hn, hawaits⟩ := h.le_cost
  refine ⟨by omega, fun hsum => ?_⟩
  obtain ⟨d, hd⟩ := hunit (by omega)
  exact hawaits (by omega) hd

theorem operand (h : Level edge ts n) (kind : t.kind.isOperand = true) :
    Level .operand (ts ++ [t]) (n + (1 - edge.cost)) :=
  h.unit (Int.le_refl 1) fun _ => ⟨_, .operand kind⟩

/-- A closed group is a unit of the group around it. -/
theorem group {edge' : Edge} {opening closing : Token} (h : Level edge ts n)
    (hopening : opening.kind = .openParen) (inner : Level edge' us m)
    (hclosing : closing.kind = .closeParen) :
    Level .operand (ts ++ opening :: (us ++ [closing])) (n + (m - edge.cost)) := by
  refine h.unit inner.le_one.1 fun hm => ?_
  obtain ⟨e, he⟩ := inner.le_one.2 hm
  exact ⟨e, .group hopening he hclosing⟩

theorem applied (h : Level edge ts n) (kind : t.kind.isPostfix = true) :
    Level .operand (ts ++ [t]) (n + 0) := by
  refine ⟨by have := h.le_one.1; omega, fun hn => ?_⟩
  obtain ⟨e, he⟩ := h.le_one.2 (by omega)
  exact he.exists_applied nofun kind

theorem binary (h : Level edge ts n) (kind : t.kind = .union ∨ t.kind = .concat) :
    Level .operator (ts ++ [t]) (n + -1) := by
  refine ⟨by have := h.le_one.1; omega, fun hn _ _ hunit => ?_⟩
  obtain ⟨e, he⟩ := h.le_one.2 (by omega)
  exact he.exists_binary kind hunit

end Level

/-! ## Open groups -/

/-- The tokens of a stream so far, in which so many groups are open, and their
surplus.  What is said of the edge is said of the innermost group. -/
inductive Nested : Nat → Edge → List Token → Int → Prop where
  | outermost {edge : Edge} {ts : List Token} {n : Int} (h : Level edge ts n) :
      Nested 0 edge ts n
  | inner {depth : Nat} {edge edge' : Edge} {ts us : List Token} {n m : Int} {opening : Token}
      (outer : Nested depth edge ts n) (hopening : opening.kind = .openParen)
      (h : Level edge' us m) :
      Nested (depth + 1) edge' (ts ++ opening :: us) (n + (m - edge.cost))

namespace Nested

variable {depth : Nat} {edge edge' : Edge} {ts us : List Token} {n m : Int} {t : Token}

/-- What happens in the innermost group happens in the stream. -/
theorem step (h : Nested depth edge ts n)
    (hstep : ∀ {vs k}, Level edge vs k → Level edge' (vs ++ us) (k + m)) :
    Nested depth edge' (ts ++ us) (n + m) := by
  cases h with
  | outermost h => exact .outermost (hstep h)
  | @inner depth edge₀ _ ts vs n k opening outer hopening h =>
    have hn : n + (k - edge₀.cost) + m = n + ((k + m) - edge₀.cost) := by omega
    rw [List.append_assoc, List.cons_append, hn]
    exact .inner outer hopening (hstep h)

theorem enter (h : Nested depth edge ts n) (hopening : t.kind = .openParen) :
    Nested (depth + 1) .start (ts ++ [t]) (n - edge.cost) := by
  have hlevel : Level .start [] 0 := ⟨rfl, rfl⟩
  have hinner := Nested.inner h hopening hlevel
  rwa [Int.zero_sub, ← Int.sub_eq_add_neg] at hinner

theorem leave (h : Nested (depth + 1) edge ts n) (hclosing : t.kind = .closeParen) :
    Nested depth .operand (ts ++ [t]) n := by
  cases h with
  | inner outer hopening h =>
    rw [List.append_assoc, List.cons_append]
    exact outer.step fun hlevel => hlevel.group hopening h hclosing

end Nested

/-! ## The surplus of a yard -/

/-- A silent concatenation is found exactly where an operand stands behind an
operand, and it costs what the edge in front of it says. -/
theorem cost_ofPrevious (previous : Option Kind) :
    (Edge.ofPrevious previous).cost = if previous.any Kind.endsOperand then 1 else 0 := by
  cases previous with
  | none => rfl
  | some k => cases k <;> rfl

/-- What a token brings changes the surplus by what the token itself does, and by what
it costs to join it to an operand in front of it. -/
theorem surplus_brought (previous : Option Kind) (t : Token) :
    surplus (brought previous t) =
      t.kind.surplus - if t.kind.startsOperand then (Edge.ofPrevious previous).cost else 0 := by
  have hitself : surplus (if t.kind.isStray then [] else [t]) = t.kind.surplus := by
    split
    · next hstray => exact (Kind.surplus_of_isStray hstray).symm
    · simp
  have hjoint : surplus (joint previous t) =
      -if t.kind.startsOperand then (Edge.ofPrevious previous).cost else 0 := by
    rw [joint, cost_ofPrevious]
    cases t.kind.startsOperand <;> cases previous.any Kind.endsOperand <;> rfl
  rw [brought, surplus_append, hitself, hjoint]
  omega

namespace Yard

/-- The surplus of all tokens in a yard. -/
def surplus (y : Yard) : Int :=
  PatternAutomata.surplus y.output.tokens + PatternAutomata.surplus y.waiting.tokens

variable {y y' : Yard} {t : Token}

/-- Open parentheses do not count. -/
theorem surplus_filter_inGroup (ts : List Token) :
    PatternAutomata.surplus (ts.filter inGroup) = PatternAutomata.surplus ts := by
  induction ts with
  | nil => rfl
  | cons t ts ih =>
    rw [List.filter_cons, surplus_cons, ← ih]
    split
    · rw [surplus_cons]
    · next hkind =>
      have hopen : t.kind = .openParen := by simpa [inGroup] using hkind
      rw [hopen]
      exact (Int.zero_add _).symm

theorem surplus_eq (y : Yard) : y.surplus = PatternAutomata.surplus y.contents := by
  rw [surplus, contents, surplus_append, surplus_filter_inGroup]

/-- What a yard knows of the tokens that it has taken. -/
def Tracks (y : Yard) (ts : List Token) : Prop :=
  Nested y.depth (Edge.ofPrevious y.previous) ts y.surplus

theorem tracks_ofRoom (room : Nat) : Tracks (ofRoom room) [] := .outermost ⟨rfl, rfl⟩

/-- Every token that a yard takes stands in the tracked stream as it stands in
the input. -/
theorem tracks_apply {ts : List Token} (htracks : Tracks y ts) (h : y.apply t = .ok y') :
    Tracks y' (ts ++ [t]) := by
  obtain ⟨hcontents, hprevious⟩ := contents_apply h
  have hsurplus := surplus_perm hcontents
  rw [surplus_append, ← surplus_eq, ← surplus_eq, Int.add_comm, surplus_brought] at hsurplus
  have hdepth := nest_of_apply h
  rw [Tracks, hprevious, hsurplus]
  change Nested y'.depth (Edge.ofKind t.kind) (ts ++ [t]) _
  cases hkind : t.kind with
  | literal | escape =>
    rw [hkind] at hdepth
    injection hdepth with hdepth
    rw [← hdepth]
    exact htracks.step fun hlevel => hlevel.operand (by rw [hkind]; rfl)
  | openParen =>
    rw [hkind] at hdepth
    injection hdepth with hdepth
    rw [← hdepth]
    have henter := htracks.enter hkind
    rwa [Int.sub_eq_add_neg, ← Int.zero_sub] at henter
  | closeParen =>
    rw [hkind, Kind.nest, ite_eq_iff] at hdepth
    obtain ⟨-, hnone⟩ | ⟨hopen, hdepth⟩ := hdepth
    · cases hnone
    · injection hdepth with hdepth
      have hleft : y.depth = y'.depth + 1 := by omega
      rw [Tracks, hleft] at htracks
      have hleave := htracks.leave hkind
      rwa [← Int.add_zero y.surplus] at hleave
  | star | plus | question =>
    rw [hkind] at hdepth
    injection hdepth with hdepth
    rw [← hdepth]
    exact htracks.step fun hlevel => hlevel.applied (by rw [hkind]; rfl)
  | union | concat =>
    rw [hkind] at hdepth
    injection hdepth with hdepth
    rw [← hdepth]
    exact htracks.step fun hlevel => hlevel.binary (by simp [hkind])
  | epsilon | endMark =>
    rw [hkind] at hdepth
    cases hdepth

theorem tracks_foldlM {ts us : List Token} (htracks : Tracks y ts)
    (h : us.foldlM apply y = .ok y') : Tracks y' (ts ++ us) := by
  induction us generalizing y ts with
  | nil =>
    cases h
    rwa [List.append_nil]
  | cons u us ih =>
    obtain ⟨next, hnext, hrest⟩ := bind_eq_ok_iff.mp h
    rw [List.append_cons]
    exact ih (tracks_apply htracks hnext) hrest

end Yard

/-- A whole stream is a group, and its surplus is that of its postorder. -/
theorem level_of_ofTokens {ts rpn : List Token} (h : ofTokens ts = .ok rpn) :
    ∃ edge, Level edge (body ts) (surplus rpn) := by
  rw [ofTokens_eq] at h
  obtain ⟨y, hrun, hfinish⟩ := bind_eq_ok_iff.mp h
  have htracks := Yard.tracks_foldlM (Yard.tracks_ofRoom _) hrun
  have hkept := surplus_perm (Yard.contents_finish hfinish)
  rw [Yard.Tracks, Yard.depth_finish hfinish, Yard.surplus_eq, ← hkept, List.nil_append] at htracks
  cases htracks with
  | outermost hlevel => exact ⟨_, hlevel⟩

/-- No stream has more than one expression left over. -/
theorem surplus_le_one {ts rpn : List Token} (h : ofTokens ts = .ok rpn) : surplus rpn ≤ 1 := by
  obtain ⟨edge, hlevel⟩ := level_of_ofTokens h
  exact hlevel.le_one.1

/-- A stream whose postorder has surplus one is derived from the grammar. -/
theorem derives_of_surplus {ts rpn : List Token} (h : ofTokens ts = .ok rpn)
    (hsurplus : surplus rpn = 1) : ∃ e, Derives .choice (body ts) e := by
  obtain ⟨edge, hlevel⟩ := level_of_ofTokens h
  exact hlevel.le_one.2 hsurplus

end Rpn

end PatternAutomata
