import Mathlib.Data.Finset.Card
import Mathlib.Logic.Relation
import PatternAutomata.Graph.Search

/-!
# What a search finds

A search lists every vertex once (`nodup_reach`), and it lists exactly what the
roots lead to (`mem_reach_iff`), if it may go through one more round than there
are vertices with successors.

The number of rounds is the point.  A round that finds a vertex with successors
leaves fewer of them unseen.  A round that finds no such vertex is followed by a
round that finds nothing.  So the rounds never end before the search does
(`levels_closed`), and further rounds list nothing (`reach_eq_of_le`).

A search does not look at the names of the vertices.  Under new names it finds the
same vertices in the same order (`reach_map`).
-/

namespace PatternAutomata.Search

open Std (ExtTreeSet)

/-- Steps lead from one vertex to another. -/
def Leads (next : Nat → List Nat) : Nat → Nat → Prop :=
  Relation.ReflTransGen fun u v => v ∈ next u

/-! ## Fresh vertices -/

variable {next : Nat → List Nat} {seen : ExtTreeSet Nat} {vs level : List Nat} {v w : Nat}

theorem mem_insert_iff : w ∈ seen.insert v ↔ v = w ∨ w ∈ seen := by
  rw [ExtTreeSet.mem_insert, Std.LawfulEqCmp.compare_eq_iff_eq]

theorem mem_fresh_fst : w ∈ (fresh seen vs).1 ↔ w ∈ vs ∧ w ∉ seen := by
  induction vs generalizing seen with
  | nil => simp [fresh]
  | cons v vs ih =>
    rw [fresh]
    by_cases hv : v ∈ seen
    · rw [if_pos hv, ih]
      constructor
      · exact fun h => ⟨List.mem_cons_of_mem _ h.1, h.2⟩
      · rintro ⟨hw, hnew⟩
        rcases List.mem_cons.mp hw with rfl | hw
        · exact absurd hv hnew
        · exact ⟨hw, hnew⟩
    · rw [if_neg hv, List.mem_cons, ih, mem_insert_iff]
      constructor
      · rintro (rfl | ⟨hw, hnew⟩)
        · exact ⟨List.mem_cons_self, hv⟩
        · exact ⟨List.mem_cons_of_mem _ hw, fun h => hnew (.inr h)⟩
      · rintro ⟨hw, hnew⟩
        by_cases heq : v = w
        · exact .inl heq.symm
        · rcases List.mem_cons.mp hw with rfl | hw
          · exact absurd rfl heq
          · exact .inr ⟨hw, fun h => h.elim heq hnew⟩

theorem mem_fresh_snd : w ∈ (fresh seen vs).2 ↔ w ∈ seen ∨ w ∈ vs := by
  induction vs generalizing seen with
  | nil => simp [fresh]
  | cons v vs ih =>
    rw [fresh]
    by_cases hv : v ∈ seen
    · rw [if_pos hv, ih, List.mem_cons]
      constructor
      · exact fun h => h.imp_right .inr
      · rintro (h | rfl | h)
        · exact .inl h
        · exact .inl hv
        · exact .inr h
    · rw [if_neg hv, ih, mem_insert_iff, List.mem_cons]
      constructor
      · rintro ((rfl | h) | h)
        · exact .inr (.inl rfl)
        · exact .inl h
        · exact .inr (.inr h)
      · rintro (h | rfl | h)
        · exact .inl (.inr h)
        · exact .inl (.inl rfl)
        · exact .inr h

theorem nodup_fresh (seen : ExtTreeSet Nat) (vs : List Nat) : (fresh seen vs).1.Nodup := by
  induction vs generalizing seen with
  | nil => exact .nil
  | cons v vs ih =>
    rw [fresh]
    by_cases hv : v ∈ seen
    · rw [if_pos hv]
      exact ih seen
    · rw [if_neg hv]
      refine List.nodup_cons.mpr ⟨fun h => ?_, ih _⟩
      exact (mem_fresh_fst.mp h).2 (mem_insert_iff.mpr (.inl rfl))

/-! ## Levels -/

theorem levels_nil (next : Nat → List Nat) (rounds : Nat) (seen : ExtTreeSet Nat) :
    levels next rounds seen [] = [] := by
  cases rounds <;> rfl

theorem levels_cons (next : Nat → List Nat) (rounds : Nat) (seen : ExtTreeSet Nat)
    (first : Nat) (others : List Nat) :
    levels next (rounds + 1) seen (first :: others) = (first :: others) ::
      levels next rounds (fresh seen ((first :: others).flatMap next)).2
        (fresh seen ((first :: others).flatMap next)).1 := rfl

/-- A round lists its level and goes on with what is fresh behind it. -/
theorem flatten_levels_succ (next : Nat → List Nat) (rounds : Nat) (seen : ExtTreeSet Nat)
    (level : List Nat) :
    (levels next (rounds + 1) seen level).flatten =
      level ++ (levels next rounds (fresh seen (level.flatMap next)).2
        (fresh seen (level.flatMap next)).1).flatten := by
  cases level with
  | nil => rw [levels_nil, List.flatMap_nil, fresh, levels_nil, List.flatten_nil, List.append_nil]
  | cons first others => rw [levels_cons, List.flatten_cons]

/-- Every level leads on from the first. -/
theorem leads_of_mem_levels {rounds : Nat} (h : v ∈ (levels next rounds seen level).flatten) :
    ∃ u ∈ level, Leads next u v := by
  induction rounds generalizing seen level with
  | zero => cases h
  | succ rounds ih =>
    rw [flatten_levels_succ, List.mem_append] at h
    rcases h with h | h
    · exact ⟨v, h, .refl⟩
    · obtain ⟨u, hu, hleads⟩ := ih h
      obtain ⟨u', hu', hstep⟩ := List.mem_flatMap.mp (mem_fresh_fst.mp hu).1
      exact ⟨u', hu', .head hstep hleads⟩

/-- No level but the first holds anything that was seen before. -/
theorem mem_levels_cases {rounds : Nat} (h : v ∈ (levels next rounds seen level).flatten) :
    v ∈ level ∨ v ∉ seen := by
  induction rounds generalizing seen level with
  | zero => cases h
  | succ rounds ih =>
    rw [flatten_levels_succ, List.mem_append] at h
    rcases h with h | h
    · exact .inl h
    · rcases ih h with h | h
      · exact .inr (mem_fresh_fst.mp h).2
      · exact .inr fun hseen => h (mem_fresh_snd.mpr (.inl hseen))

theorem nodup_levels {rounds : Nat} (hlevel : level.Nodup) (hseen : ∀ v ∈ level, v ∈ seen) :
    (levels next rounds seen level).flatten.Nodup := by
  induction rounds generalizing seen level with
  | zero => exact .nil
  | succ rounds ih =>
    rw [flatten_levels_succ, List.nodup_append']
    refine ⟨hlevel, ih (nodup_fresh _ _) fun v hv => ?_, fun v hv hlater => ?_⟩
    · exact mem_fresh_snd.mpr (.inr (mem_fresh_fst.mp hv).1)
    · rcases mem_levels_cases hlater with h | h
      · exact (mem_fresh_fst.mp h).2 (hseen v hv)
      · exact h (mem_fresh_snd.mpr (.inl (hseen v hv)))

/-! ## Enough rounds -/

/-- How many of the first `n` vertices have not been seen. -/
def unseen (n : Nat) (seen : ExtTreeSet Nat) : Nat :=
  ((Finset.range n).filter fun v => v ∉ seen).card

theorem unseen_lt {n : Nat} {seen' : ExtTreeSet Nat} (hsub : ∀ u ∈ seen, u ∈ seen') (hv : v < n)
    (hnew : v ∉ seen) (hfound : v ∈ seen') : unseen n seen' < unseen n seen := by
  refine Finset.card_lt_card (Finset.ssubset_iff_of_subset ?_ |>.mpr ⟨v, ?_, ?_⟩)
  · intro u hu
    rw [Finset.mem_filter] at hu ⊢
    exact ⟨hu.1, fun h => hu.2 (hsub u h)⟩
  · exact Finset.mem_filter.mpr ⟨Finset.mem_range.mpr hv, hnew⟩
  · exact fun h => (Finset.mem_filter.mp h).2 hfound

/-- There are rounds left for all that is to be found.  A level that holds a
vertex with successors needs another round behind every vertex that is unseen. -/
def Enough (n rounds : Nat) (seen : ExtTreeSet Nat) (level : List Nat) : Prop :=
  1 ≤ rounds ∧ ((∃ v ∈ level, v < n) → unseen n seen + 2 ≤ rounds)

theorem Enough.later {n rounds : Nat} (h : Enough n (rounds + 1) seen level)
    (hv : v ∈ level) (hn : v < n) :
    Enough n rounds (fresh seen vs).2 (fresh seen vs).1 := by
  have hrounds := h.2 ⟨v, hv, hn⟩
  refine ⟨by omega, ?_⟩
  rintro ⟨w, hw, hwn⟩
  obtain ⟨hwvs, hnew⟩ := mem_fresh_fst.mp hw
  have hlt : unseen n (fresh seen vs).2 < unseen n seen :=
    unseen_lt (fun u hu => mem_fresh_snd.mpr (.inl hu)) hwn hnew (mem_fresh_snd.mpr (.inr hwvs))
  omega

/-- A fresh vertex follows one of the level, so there are rounds left for it. -/
theorem Enough.fresh {n rounds : Nat} (hnext : ∀ v, n ≤ v → next v = [])
    (h : Enough n (rounds + 1) seen level) (hv : v ∈ (fresh seen (level.flatMap next)).1) :
    Enough n rounds (fresh seen (level.flatMap next)).2 (fresh seen (level.flatMap next)).1 := by
  obtain ⟨u, hu, hstep⟩ := List.mem_flatMap.mp (mem_fresh_fst.mp hv).1
  refine h.later hu ?_
  by_contra hge
  rw [hnext u (Nat.le_of_not_lt hge)] at hstep
  cases hstep

/-- The roots of a search are left with enough rounds. -/
theorem enough_roots (n : Nat) (roots : List Nat) :
    Enough n (n + 1) (fresh ∅ roots).2 (fresh ∅ roots).1 := by
  refine ⟨by omega, ?_⟩
  rintro ⟨w, hw, hwn⟩
  have hlt : unseen n (fresh ∅ roots).2 < unseen n ∅ :=
    unseen_lt (fun _ h => absurd h ExtTreeSet.not_mem_empty) hwn (mem_fresh_fst.mp hw).2
      (mem_fresh_snd.mpr (.inr (mem_fresh_fst.mp hw).1))
  have hle : unseen n ∅ ≤ n := by
    refine Nat.le_trans (Finset.card_filter_le _ _) ?_
    rw [Finset.card_range]
  omega

/-- With enough rounds, whatever follows a listed vertex has been seen before or
is listed too. -/
theorem levels_closed {n rounds : Nat} (hnext : ∀ v, n ≤ v → next v = [])
    (henough : Enough n rounds seen level) (hv : v ∈ (levels next rounds seen level).flatten)
    (hw : w ∈ next v) : w ∈ seen ∨ w ∈ (levels next rounds seen level).flatten := by
  induction rounds generalizing seen level with
  | zero => cases hv
  | succ rounds ih =>
    rw [flatten_levels_succ, List.mem_append] at hv ⊢
    generalize hfound : fresh seen (level.flatMap next) = found at hv ⊢
    have hfst : ∀ {u}, u ∈ found.1 ↔ u ∈ level.flatMap next ∧ u ∉ seen := by
      rw [← hfound]
      exact mem_fresh_fst
    have hlater : ∀ {u}, u ∈ found.1 → Enough n rounds found.2 found.1 := by
      rw [← hfound]
      exact henough.fresh hnext
    have hlisted : ∀ {u}, u ∈ found.1 → u ∈ (levels next rounds found.2 found.1).flatten := by
      intro u hu
      obtain ⟨rest, hrest⟩ : ∃ rest, rounds = rest + 1 := Nat.exists_eq_add_of_le' (hlater hu).1
      rw [hrest, flatten_levels_succ]
      exact List.mem_append_left _ hu
    by_cases hseen : w ∈ seen
    · exact .inl hseen
    · refine .inr (.inr ?_)
      rcases hv with hv | hv
      · exact hlisted (hfst.mpr ⟨List.mem_flatMap.mpr ⟨v, hv, hw⟩, hseen⟩)
      · obtain ⟨u, hu, -⟩ := leads_of_mem_levels hv
        rcases ih (hlater hu) hv with h | h
        · rw [← hfound, mem_fresh_snd] at h
          rcases h with h | h
          · exact absurd h hseen
          · exact hlisted (hfst.mpr ⟨h, hseen⟩)
        · exact h

/-! ## The search -/

/-- A search lists exactly what the roots lead to. -/
theorem mem_reach_iff {n : Nat} (hnext : ∀ v, n ≤ v → next v = []) {roots : List Nat} :
    v ∈ reach next (n + 1) roots ↔ ∃ u ∈ roots, Leads next u v := by
  have hfst : ∀ {u}, u ∈ (fresh ∅ roots).1 ↔ u ∈ roots := by
    intro u
    rw [mem_fresh_fst]
    exact and_iff_left ExtTreeSet.not_mem_empty
  constructor
  · intro h
    obtain ⟨u, hu, hleads⟩ := leads_of_mem_levels h
    exact ⟨u, hfst.mp hu, hleads⟩
  · rintro ⟨u, hu, hleads⟩
    have hroot : ∀ w ∈ roots, w ∈ reach next (n + 1) roots := by
      intro w hw
      rw [reach, flatten_levels_succ]
      exact List.mem_append_left _ (hfst.mpr hw)
    induction hleads with
    | refl => exact hroot u hu
    | tail _ hstep ih =>
      rcases levels_closed hnext (enough_roots n roots) ih hstep with h | h
      · rcases mem_fresh_snd.mp h with h | h
        · exact absurd h ExtTreeSet.not_mem_empty
        · exact hroot _ h
      · exact h

/-- A search lists every vertex once. -/
theorem nodup_reach (next : Nat → List Nat) (rounds : Nat) (roots : List Nat) :
    (reach next rounds roots).Nodup :=
  nodup_levels (nodup_fresh _ _) fun _ hv => mem_fresh_snd.mpr (.inr (mem_fresh_fst.mp hv).1)

/-- A search from a single root lists the root first. -/
theorem reach_eq_cons (next : Nat → List Nat) (rounds root : Nat) :
    ∃ rest, reach next (rounds + 1) [root] = root :: rest := by
  have hfresh : (fresh ∅ [root]).1 = [root] := by
    rw [fresh, if_neg ExtTreeSet.not_mem_empty, fresh]
  rw [reach, flatten_levels_succ, hfresh]
  exact ⟨_, rfl⟩

/-! ## More rounds -/

/-- Rounds that are not needed list nothing. -/
theorem levels_eq_of_le {n rounds more : Nat} (hnext : ∀ v, n ≤ v → next v = [])
    (henough : Enough n rounds seen level) (hle : rounds ≤ more) :
    levels next more seen level = levels next rounds seen level := by
  induction rounds generalizing more seen level with
  | zero => exact absurd henough.1 (by omega)
  | succ rounds ih =>
    obtain ⟨rest, rfl⟩ : ∃ rest, more = rest + 1 := Nat.exists_eq_add_of_le' (by omega)
    cases level with
    | nil => rw [levels_nil, levels_nil]
    | cons first others =>
      rw [levels_cons, levels_cons]
      congr 1
      cases hfound : (fresh seen ((first :: others).flatMap next)).1 with
      | nil => rw [levels_nil, levels_nil]
      | cons v vs =>
        rw [← hfound]
        have hv : v ∈ (fresh seen ((first :: others).flatMap next)).1 := by
          rw [hfound]
          exact List.mem_cons_self
        exact ih (henough.fresh hnext hv) (by omega)

/-- A search may be given any number of rounds that is large enough. -/
theorem reach_eq_of_le {n m : Nat} (hnext : ∀ v, n ≤ v → next v = []) (hle : n ≤ m)
    (roots : List Nat) : reach next (m + 1) roots = reach next (n + 1) roots := by
  rw [reach, reach, levels_eq_of_le hnext (enough_roots n roots) (by omega)]

/-! ## New names -/

section Names

variable {names : Nat → Nat} {next' : Nat → List Nat} {seen' : ExtTreeSet Nat}

/-- New names for what was seen and for what is looked at give the fresh vertices
new names. -/
theorem fresh_map (hnames : names.Injective) (hseen : ∀ v, names v ∈ seen' ↔ v ∈ seen) :
    (fresh seen' (vs.map names)).1 = (fresh seen vs).1.map names := by
  induction vs generalizing seen seen' with
  | nil => rfl
  | cons v vs ih =>
    rw [List.map_cons, fresh, fresh]
    by_cases hv : v ∈ seen
    · rw [if_pos hv, if_pos ((hseen v).mpr hv)]
      exact ih hseen
    · rw [if_neg hv, if_neg fun h => hv ((hseen v).mp h)]
      refine congrArg (names v :: ·) (ih fun w => ?_)
      rw [mem_insert_iff, mem_insert_iff, hseen w, hnames.eq_iff]

theorem mem_fresh_map_snd (hnames : names.Injective) (hseen : ∀ v, names v ∈ seen' ↔ v ∈ seen)
    (v : Nat) : names v ∈ (fresh seen' (vs.map names)).2 ↔ v ∈ (fresh seen vs).2 := by
  rw [mem_fresh_snd, mem_fresh_snd, hseen v, List.mem_map_of_injective hnames]

theorem levels_map (hnames : names.Injective) (hnext : ∀ v, next' (names v) = (next v).map names)
    (rounds : Nat) (hseen : ∀ v, names v ∈ seen' ↔ v ∈ seen) :
    levels next' rounds seen' (level.map names) =
      (levels next rounds seen level).map (List.map names) := by
  induction rounds generalizing seen seen' level with
  | zero => rfl
  | succ rounds ih =>
    cases level with
    | nil => rfl
    | cons first others =>
      have hfound : ((first :: others).map names).flatMap next' =
          ((first :: others).flatMap next).map names := by
        rw [List.flatMap_map, List.map_flatMap]
        exact List.flatMap_congr fun v _ => hnext v
      rw [levels_cons, List.map_cons (f := List.map names), List.map_cons, levels_cons,
        ← List.map_cons, hfound, fresh_map hnames hseen, ih (mem_fresh_map_snd hnames hseen)]

/-- A search under new names finds the vertices under their new names, in the same
order. -/
theorem reach_map (hnames : names.Injective) (hnext : ∀ v, next' (names v) = (next v).map names)
    (rounds : Nat) (roots : List Nat) :
    reach next' rounds (roots.map names) = (reach next rounds roots).map names := by
  have hseen : ∀ v, names v ∈ (∅ : ExtTreeSet Nat) ↔ v ∈ (∅ : ExtTreeSet Nat) := fun v =>
    iff_of_false ExtTreeSet.not_mem_empty ExtTreeSet.not_mem_empty
  rw [reach, reach, fresh_map hnames hseen,
    levels_map hnames hnext rounds (mem_fresh_map_snd hnames hseen), List.map_flatten]

end Names

end PatternAutomata.Search
