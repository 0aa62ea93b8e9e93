import PatternAutomata.Proofs.Rpn.Contents
import PatternAutomata.Proofs.Rpn.Room

/-!
# Streams that nest

A stream nests if every `)` closes a group, every group is closed, and nothing
stands in it that reading order has no place for (`nesting`).  A stream that nests
is put into postorder without a fault, however ill its operators and operands are
placed (`exists_ofTokens_eq_ok`).

There are two things that could go wrong.  A group that is closed must be open: the
yard counts the open groups as `nesting` does.  And there must be room: a token
brings at most two tokens into the yard, itself and a silent concatenation, and the
buffers have room for twice as many tokens as there are in the stream
(`Yard.Fits`).

A stream may nest and still hold nothing.  Its postorder is empty exactly if it
holds groups around nothing (`ofTokens_eq_nil_iff`).
-/

namespace PatternAutomata

/-! ## Counting groups -/

/-- How many groups are open behind a token of a kind, if reading order has a place
for it. -/
def Kind.nest (opened : Nat) : Kind → Option Nat
  | openParen => some (opened + 1)
  | closeParen => if opened = 0 then none else some (opened - 1)
  | epsilon | endMark => none
  | literal | escape | star | plus | question | union | concat => some opened

/-- How many groups are open behind tokens of these kinds, if reading order has a
place for all of them. -/
def nesting (opened : Nat) (kinds : List Kind) : Option Nat := kinds.foldlM Kind.nest opened

theorem nesting_cons (opened : Nat) (k : Kind) (kinds : List Kind) :
    nesting opened (k :: kinds) = (k.nest opened).bind fun inner => nesting inner kinds :=
  List.foldlM_cons

theorem nesting_append_singleton (opened : Nat) (kinds : List Kind) (k : Kind) :
    nesting opened (kinds ++ [k]) = (nesting opened kinds).bind k.nest := by
  simp [nesting, List.foldlM_append]

/-- What holds of all prefixes holds of the empty one and of all longer ones. -/
theorem forall_prefix_cons {α : Type} {P : List α → Prop} {a : α} {l : List α} :
    (∀ before, before <+: a :: l → P before) ↔ P [] ∧ ∀ before, before <+: l → P (a :: before) := by
  simp only [List.prefix_cons_iff]
  constructor
  · intro h
    exact ⟨h [] (.inl rfl), fun before hbefore => h _ (.inr ⟨before, rfl, hbefore⟩)⟩
  · rintro ⟨hnil, hcons⟩ before (rfl | ⟨tail, rfl, htail⟩)
    · exact hnil
    · exact hcons tail htail

/-- Tokens nest if and only if reading order has a place for each of them, no group is
closed before it is opened, and the groups that are left open are counted. -/
theorem nesting_eq_some_iff {kinds : List Kind} {opened left : Nat} :
    nesting opened kinds = some left ↔ (∀ k ∈ kinds, k ≠ .epsilon ∧ k ≠ .endMark) ∧
      (∀ before, before <+: kinds →
        before.count .closeParen ≤ opened + before.count .openParen) ∧
      left + kinds.count .closeParen = opened + kinds.count .openParen := by
  induction kinds generalizing opened with
  | nil =>
    simp only [List.prefix_nil, List.count_nil]
    constructor
    · intro h
      cases h
      exact ⟨nofun, by simp, rfl⟩
    · rintro ⟨-, -, hleft⟩
      rw [Nat.add_zero, Nat.add_zero] at hleft
      rw [hleft]
      rfl
  | cons k kinds ih =>
    rw [nesting_cons, Option.bind_eq_some_iff, forall_prefix_cons, List.forall_mem_cons]
    cases k with
    | epsilon | endMark => simp [Kind.nest]
    | openParen => simp [Kind.nest, ih, Nat.add_assoc, Nat.add_comm 1]
    | closeParen =>
      cases opened with
      | zero =>
        -- Right at the start there is no group to close.
        simp only [Kind.nest, if_pos, reduceCtorEq, false_and, exists_false, false_iff]
        rintro ⟨-, ⟨-, hclose⟩, -⟩
        have hfirst := hclose [] List.nil_prefix
        simp at hfirst
      | succ opened =>
        simp [Kind.nest, ih, Nat.add_right_comm opened 1, ← Nat.add_assoc]
    | literal | escape | star | plus | question | union | concat =>
      simp [Kind.nest, ih]

/-- Groups that are open around tokens stay open. -/
theorem nesting_add {kinds : List Kind} {opened left : Nat} (h : nesting opened kinds = some left)
    (n : Nat) : nesting (opened + n) kinds = some (left + n) := by
  rw [nesting_eq_some_iff] at h ⊢
  obtain ⟨hkinds, hclose, hleft⟩ := h
  refine ⟨hkinds, fun before hbefore => ?_, by omega⟩
  have := hclose before hbefore
  omega

namespace Rpn

namespace Yard

variable {y y' : Yard} {t : Token} {ts : List Token} {capacity n d : Nat}

/-- A token that a yard takes has a place, and the open groups are counted. -/
theorem nest_of_apply (h : y.apply t = .ok y') : t.kind.nest y.depth = some y'.depth := by
  obtain ⟨joined, hjoined, hrest⟩ := bind_eq_ok_iff.mp h
  obtain ⟨taken, htaken, hy⟩ := bind_eq_ok_iff.mp hrest
  cases hy
  change _ = some taken.depth
  rw [← depth_join hjoined]
  unfold accept at htaken
  cases hkind : t.kind with
  | literal | escape =>
    rw [hkind] at htaken
    rw [depth_operand htaken]
    rfl
  | openParen =>
    rw [hkind] at htaken
    rw [depth_openGroup htaken hkind]
    rfl
  | closeParen =>
    rw [hkind] at htaken
    rw [Kind.nest, ← depth_closeGroup htaken]
    rfl
  | star | plus | question | union | concat =>
    rw [hkind] at htaken
    rw [depth_operator htaken (by rw [hkind]; decide)]
    rfl
  | epsilon | endMark =>
    rw [hkind] at htaken
    cases htaken

/-! ## Room -/

/-- Both buffers have this capacity, and together they hold at most so many
tokens. -/
def Fits (capacity n : Nat) (y : Yard) : Prop :=
  ∃ output waiting, y = holding capacity output waiting y.previous ∧
    output.length + waiting.length ≤ n

namespace Fits

theorem mono {m : Nat} (h : y.Fits capacity n) (hle : n ≤ m) : y.Fits capacity m := by
  obtain ⟨output, waiting, heq, hlength⟩ := h
  exact ⟨output, waiting, heq, Nat.le_trans hlength hle⟩

theorem ofRoom (room : Nat) : (Yard.ofRoom room).Fits room 0 := ⟨[], [], rfl, Nat.le_refl 0⟩

theorem operand (h : y.Fits capacity n) (hroom : n < capacity) (t : Token) :
    ∃ y', y.operand t = .ok y' ∧ y'.Fits capacity (n + 1) ∧ y'.depth = y.depth := by
  obtain ⟨output, waiting, heq, hlength⟩ := h
  have htaken : (holding capacity output waiting y.previous).operand t = _ :=
    operand_holding t (by omega)
  rw [← heq] at htaken
  refine ⟨_, htaken, ⟨t :: output, waiting, rfl, ?_⟩, depth_operand htaken⟩
  rw [List.length_cons]
  omega

theorem openGroup (h : y.Fits capacity n) (hroom : n < capacity) (hkind : t.kind = .openParen) :
    ∃ y', y.openGroup t = .ok y' ∧ y'.Fits capacity (n + 1) ∧ y'.depth = y.depth + 1 := by
  obtain ⟨output, waiting, heq, hlength⟩ := h
  have htaken : (holding capacity output waiting y.previous).openGroup t = _ :=
    openGroup_holding t (by omega)
  rw [← heq] at htaken
  refine ⟨_, htaken, ⟨output, t :: waiting, rfl, ?_⟩, depth_openGroup htaken hkind⟩
  rw [List.length_cons]
  omega

theorem operator (h : y.Fits capacity n) (hroom : n < capacity) (hkind : 1 ≤ t.kind.precedence) :
    ∃ y', y.operator t = .ok y' ∧ y'.Fits capacity (n + 1) ∧ y'.depth = y.depth := by
  obtain ⟨output, waiting, heq, hlength⟩ := h
  have htaken : (holding capacity output waiting y.previous).operator t = _ :=
    operator_holding t (by omega)
  rw [← heq] at htaken
  refine ⟨_, htaken, ⟨_, _, rfl, ?_⟩, depth_operator htaken hkind⟩
  have hsplit := congrArg List.length
    (List.takeWhile_append_dropWhile (p := binds t) (l := waiting))
  rw [List.length_append] at hsplit
  rw [List.length_append, List.length_reverse, List.length_cons]
  omega

/-- Where a group is open, it can be closed. -/
theorem closeGroup (h : y.Fits capacity n) (hroom : n ≤ capacity) (hdepth : y.depth ≠ 0)
    (position : Nat) :
    ∃ y', y.closeGroup position = .ok y' ∧ y'.Fits capacity n ∧ y'.depth = y.depth - 1 := by
  have hinside : y.openings ≠ [] := by
    rwa [depth_eq_length, ← Nat.pos_iff_ne_zero, List.length_pos_iff] at hdepth
  obtain ⟨opening, outer, hopenings⟩ := List.exists_cons_of_ne_nil hinside
  obtain ⟨inner, below, hsplit, hinner, hopening⟩ := exists_of_openings hopenings
  obtain ⟨output, waiting, heq, hlength⟩ := h
  rw [heq] at hsplit
  obtain rfl : waiting = inner ++ opening :: below := hsplit
  have htaken := closeGroup_holding y.previous position hinner hopening
    (show output.length + (inner ++ opening :: below).length ≤ capacity by omega)
  rw [← heq] at htaken
  have hleft := depth_closeGroup htaken
  refine ⟨_, htaken, ⟨_, _, rfl, ?_⟩, by omega⟩
  rw [List.length_append, List.length_cons] at hlength
  rw [List.length_append, List.length_reverse]
  omega

theorem join (h : y.Fits capacity n) (hroom : n < capacity) (t : Token) :
    ∃ y', y.join t = .ok y' ∧ y'.Fits capacity (n + 1) ∧ y'.depth = y.depth := by
  unfold Yard.join
  split
  · exact h.operator hroom (show 1 ≤ Kind.concat.precedence by decide)
  · exact ⟨y, rfl, h.mono (Nat.le_succ n), rfl⟩

/-- A token that reading order has a place for is taken, and the open groups are
counted. -/
theorem accept (h : y.Fits capacity n) (hroom : n < capacity)
    (hnest : t.kind.nest y.depth = some d) :
    ∃ y', y.accept t = .ok y' ∧ y'.Fits capacity (n + 1) ∧ y'.depth = d := by
  unfold Yard.accept
  cases hkind : t.kind with
  | literal | escape =>
    rw [hkind] at hnest
    cases hnest
    exact h.operand hroom t
  | openParen =>
    rw [hkind] at hnest
    cases hnest
    exact h.openGroup hroom hkind
  | closeParen =>
    rw [hkind, Kind.nest, ite_eq_iff] at hnest
    obtain ⟨-, hnone⟩ | ⟨hdepth, hnest⟩ := hnest
    · cases hnone
    · cases hnest
      obtain ⟨y', htaken, hfits, hleft⟩ := h.closeGroup (Nat.le_of_lt hroom) hdepth t.position
      exact ⟨y', htaken, hfits.mono (Nat.le_succ n), hleft⟩
  | star | plus | question | union | concat =>
    rw [hkind] at hnest
    cases hnest
    exact h.operator hroom (by rw [hkind]; decide)
  | epsilon | endMark =>
    rw [hkind] at hnest
    cases hnest

theorem apply (h : y.Fits capacity n) (hroom : n + 2 ≤ capacity)
    (hnest : t.kind.nest y.depth = some d) :
    ∃ y', y.apply t = .ok y' ∧ y'.Fits capacity (n + 2) ∧ y'.depth = d := by
  obtain ⟨joined, hjoined, hfits, hdepth⟩ := h.join (by omega) t
  rw [← hdepth] at hnest
  obtain ⟨taken, htaken, ⟨output, waiting, heq, hlength⟩, hdepth'⟩ := hfits.accept hroom hnest
  refine ⟨{ taken with previous := some t.kind }, ?_, ⟨output, waiting, ?_, hlength⟩, hdepth'⟩
  · rw [Yard.apply, hjoined, ok_bind, htaken]
    rfl
  · rw [heq]
    rfl

theorem foldlM_apply (h : y.Fits capacity n) (hroom : n + 2 * ts.length ≤ capacity)
    (hnest : nesting y.depth (ts.map Token.kind) = some d) :
    ∃ y', ts.foldlM Yard.apply y = .ok y' ∧ y'.Fits capacity (n + 2 * ts.length) ∧
      y'.depth = d := by
  induction ts generalizing y n with
  | nil =>
    cases hnest
    exact ⟨y, rfl, h, rfl⟩
  | cons t ts ih =>
    rw [List.map_cons, nesting_cons, Option.bind_eq_some_iff] at hnest
    obtain ⟨inner, hfirst, hrest⟩ := hnest
    rw [List.length_cons] at hroom ⊢
    obtain ⟨next, hnext, hfits, rfl⟩ := h.apply (by omega) hfirst
    obtain ⟨y', hrun, hfits', hdepth⟩ := ih hfits (by omega) hrest
    refine ⟨y', ?_, hfits'.mono (by omega), hdepth⟩
    rw [List.foldlM_cons, hnext, ok_bind, hrun]

/-- Where no group is open, a stream may end. -/
theorem finish (h : y.Fits capacity n) (hroom : n ≤ capacity) (hdepth : y.depth = 0) :
    ∃ rpn, y.finish = .ok rpn := by
  rw [depth_eq_length, List.length_eq_zero_iff] at hdepth
  have hwaiting := inGroup_of_openings_eq_nil hdepth
  obtain ⟨output, waiting, heq, hlength⟩ := h
  rw [heq] at hwaiting ⊢
  exact ⟨_, finish_holding hwaiting (Nat.le_trans hlength hroom)⟩

end Fits

end Yard

/-- A stream that nests is put into postorder without a fault. -/
theorem exists_ofTokens_eq_ok {ts : List Token}
    (h : nesting 0 ((body ts).map Token.kind) = some 0) : ∃ rpn, ofTokens ts = .ok rpn := by
  have hbody := length_body_le ts
  obtain ⟨y, hrun, hfits, hdepth⟩ := (Yard.Fits.ofRoom (2 * ts.length)).foldlM_apply
    (show 0 + 2 * (body ts).length ≤ 2 * ts.length by omega) h
  obtain ⟨rpn, hfinish⟩ := hfits.finish (by omega) hdepth
  exact ⟨rpn, by rw [ofTokens_eq, hrun, ok_bind, hfinish]⟩

/-! ## Groups around nothing -/

/-- The kinds of open parentheses and then closing ones. -/
def hollow (m k : Nat) : List Kind :=
  List.replicate m .openParen ++ List.replicate k .closeParen

variable {ts : List Token} {previous : Option Kind} {m k n d : Nat}

theorem filled_of_closing (h : ∀ t ∈ ts, t.kind = .closeParen) : filled previous ts = [] := by
  induction ts generalizing previous with
  | nil => rfl
  | cons t ts ih =>
    obtain ⟨hkind, hrest⟩ := List.forall_mem_cons.mp h
    rw [filled, brought_eq_nil (by rw [hkind]; rfl) (by rw [hkind]; rfl), ih hrest]
    rfl

/-- Groups around nothing bring nothing, if no operand ends in front of them. -/
theorem filled_of_hollow (hprevious : previous.any Kind.endsOperand = false)
    (h : ts.map Token.kind = hollow m k) : filled previous ts = [] := by
  induction m generalizing ts previous with
  | zero =>
    rw [hollow, List.replicate_zero, List.nil_append, List.eq_replicate_iff,
      List.forall_mem_map] at h
    exact filled_of_closing h.2
  | succ m ih =>
    cases ts with
    | nil => cases h
    | cons t ts =>
      rw [hollow, List.replicate_succ, List.cons_append, List.map_cons, List.cons.injEq] at h
      rw [filled, brought_eq_nil (by rw [h.1]; rfl) (by rw [hprevious, Bool.and_false]),
        ih (by rw [h.1]; rfl) h.2]
      rfl

/-- Only groups around nothing bring nothing.  Behind the end of an operand not even a
group may be opened. -/
theorem hollow_of_filled (h : filled previous ts = [])
    (hnest : nesting n (ts.map Token.kind) = some d) :
    ∃ m k, ts.map Token.kind = hollow m k ∧ n + m = d + k ∧
      (previous.any Kind.endsOperand = true → m = 0) := by
  induction ts generalizing previous n with
  | nil =>
    cases hnest
    exact ⟨0, 0, rfl, rfl, fun _ => rfl⟩
  | cons t ts ih =>
    rw [filled, List.append_eq_nil_iff] at h
    obtain ⟨hbrought, hfilled⟩ := h
    rw [List.map_cons, nesting_cons, Option.bind_eq_some_iff] at hnest
    obtain ⟨inner, hfirst, hrest⟩ := hnest
    obtain ⟨m, k, hkinds, hcount, hlast⟩ := ih hfilled hrest
    cases hkind : t.kind with
    | literal | escape | star | plus | question | union | concat =>
      exact absurd hbrought (brought_ne_nil (by rw [hkind]; rfl))
    | epsilon | endMark =>
      rw [hkind] at hfirst
      cases hfirst
    | openParen =>
      rw [hkind] at hfirst
      cases hfirst
      refine ⟨m + 1, k, ?_, by omega, fun hends => ?_⟩
      · rw [List.map_cons, hkind, hkinds]
        rfl
      · simp [brought, joint, hkind, hends, Kind.startsOperand] at hbrought
    | closeParen =>
      rw [hkind, Kind.nest, ite_eq_iff] at hfirst
      obtain ⟨-, hnone⟩ | ⟨hopened, hfirst⟩ := hfirst
      · cases hnone
      · cases hfirst
        obtain rfl := hlast (by rw [hkind]; rfl)
        refine ⟨0, k + 1, ?_, by omega, fun _ => rfl⟩
        rw [List.map_cons, hkind, hkinds]
        rfl

/-- A stream that nests has an empty postorder if and only if it holds groups around
nothing, and nothing else. -/
theorem ofTokens_eq_nil_iff {rpn : List Token} (h : ofTokens ts = .ok rpn)
    (hnest : nesting 0 ((body ts).map Token.kind) = some 0) :
    rpn = [] ↔ ∃ n, (body ts).map Token.kind = hollow n n := by
  have hperm := perm_filled h
  constructor
  · rintro rfl
    obtain ⟨m, k, hkinds, hcount, -⟩ := hollow_of_filled hperm.nil_eq.symm hnest
    obtain rfl : m = k := by omega
    exact ⟨m, hkinds⟩
  · rintro ⟨n, hkinds⟩
    rw [filled_of_hollow rfl hkinds] at hperm
    exact hperm.eq_nil

end Rpn

end PatternAutomata
