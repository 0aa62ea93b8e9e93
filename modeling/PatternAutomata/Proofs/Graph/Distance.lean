import Mathlib.Data.List.Basic
import PatternAutomata.Proofs.Graph.Search

/-!
# Distances in a search

The distance of a vertex is the smallest number of steps that lead to it from the
root.  Whatever is not the root follows a vertex that is one step nearer
(`Distance.exists_before`).

So the levels of a search are the vertices of one distance each: a level holds what is
`n` steps away, and with all that is nearer it has been seen (`Layer`).  What is fresh
behind it is the next level (`Layer.later`).  A search lists one level after the other,
so it lists the vertices by their distance (`Layer.pairwise`).
-/

namespace PatternAutomata.Search

open Std (ExtTreeSet)

variable {next : Nat → List Nat} {seen : ExtTreeSet Nat} {level : List Nat}
variable {root u v m n rounds : Nat}

/-! ## Distances -/

/-- So many steps lead from the root to a vertex. -/
inductive LeadsIn (next : Nat → List Nat) (root : Nat) : Nat → Nat → Prop where
  | here : LeadsIn next root 0 root
  | step {n u v : Nat} (before : LeadsIn next root n u) (mem : v ∈ next u) :
    LeadsIn next root (n + 1) v

/-- The distance of a vertex: so many steps lead to it, and fewer do not. -/
def Distance (next : Nat → List Nat) (root v n : Nat) : Prop :=
  LeadsIn next root n v ∧ ∀ m < n, ¬LeadsIn next root m v

theorem leads_iff_leadsIn : Leads next root v ↔ ∃ n, LeadsIn next root n v := by
  constructor
  · intro h
    induction h with
    | refl => exact ⟨0, .here⟩
    | tail _ hstep ih =>
      obtain ⟨n, hn⟩ := ih
      exact ⟨n + 1, hn.step hstep⟩
  · rintro ⟨n, h⟩
    induction h with
    | here => exact .refl
    | step _ mem ih => exact ih.tail mem

/-- What is led to in some steps has a distance that is no greater. -/
theorem LeadsIn.exists_distance (h : LeadsIn next root n v) : ∃ m ≤ n, Distance next root v m := by
  induction n using Nat.strongRecOn with
  | ind n ih =>
    by_cases hfewer : ∃ m < n, LeadsIn next root m v
    · obtain ⟨m, hm, hlead⟩ := hfewer
      obtain ⟨k, hk, hdist⟩ := ih m hm hlead
      exact ⟨k, by omega, hdist⟩
    · exact ⟨n, Nat.le_refl n, h, fun m hm hlead => hfewer ⟨m, hm, hlead⟩⟩

theorem exists_distance (h : Leads next root v) : ∃ n, Distance next root v n := by
  obtain ⟨n, hn⟩ := leads_iff_leadsIn.mp h
  obtain ⟨m, -, hm⟩ := hn.exists_distance
  exact ⟨m, hm⟩

namespace Distance

theorem le (h : Distance next root v m) (hlead : LeadsIn next root n v) : m ≤ n :=
  Nat.le_of_not_lt fun hlt => h.2 n hlt hlead

theorem eq (h : Distance next root v m) (h' : Distance next root v n) : m = n :=
  Nat.le_antisymm (h.le h'.1) (h'.le h.1)

theorem leads (h : Distance next root v n) : Leads next root v := leads_iff_leadsIn.mpr ⟨n, h.1⟩

theorem eq_root (h : Distance next root v 0) : v = root := by
  cases h.1 with
  | here => rfl

theorem root_eq_zero (h : Distance next root root n) : n = 0 := Nat.le_zero.mp (h.le .here)

/-- Whatever is not the root follows a vertex that is one step nearer. -/
theorem exists_before (h : Distance next root v (n + 1)) :
    ∃ u, Distance next root u n ∧ v ∈ next u := by
  cases h.1 with
  | @step _ u _ before mem =>
    exact ⟨u, ⟨before, fun m hm hlead => h.2 (m + 1) (by omega) (hlead.step mem)⟩, mem⟩

end Distance

/-! ## Levels by distance -/

/-- A level holds what is `n` steps away, and with all that is nearer it has been seen. -/
structure Layer (next : Nat → List Nat) (root n : Nat) (seen : ExtTreeSet Nat)
    (level : List Nat) : Prop where
  /-- What has been seen is at most `n` steps away. -/
  seen_iff : ∀ v, v ∈ seen ↔ ∃ m ≤ n, LeadsIn next root m v
  /-- What is in the level is exactly `n` steps away. -/
  level_iff : ∀ v, v ∈ level ↔ Distance next root v n

namespace Layer

theorem first (next : Nat → List Nat) (root : Nat) :
    Layer next root 0 (fresh ∅ [root]).2 (fresh ∅ [root]).1 where
  seen_iff v := by
    rw [mem_fresh_snd, or_iff_right ExtTreeSet.not_mem_empty, List.mem_singleton]
    constructor
    · rintro rfl
      exact ⟨0, Nat.le_refl 0, .here⟩
    · rintro ⟨m, hm, hlead⟩
      obtain rfl := Nat.le_zero.mp hm
      cases hlead with
      | here => rfl
  level_iff v := by
    rw [mem_fresh_fst, and_iff_left ExtTreeSet.not_mem_empty, List.mem_singleton]
    constructor
    · rintro rfl
      exact ⟨.here, fun m hm => absurd hm (Nat.not_lt_zero m)⟩
    · exact Distance.eq_root

/-- The fresh vertices behind a level are one step further away. -/
theorem later (h : Layer next root n seen level) :
    Layer next root (n + 1) (fresh seen (level.flatMap next)).2
      (fresh seen (level.flatMap next)).1 := by
  have hfound : ∀ v, v ∈ level.flatMap next ↔ ∃ u, Distance next root u n ∧ v ∈ next u := by
    intro v
    simp only [List.mem_flatMap, h.level_iff]
  refine ⟨fun v => ?_, fun v => ?_⟩
  · rw [mem_fresh_snd, h.seen_iff, hfound]
    constructor
    · rintro (⟨m, hm, hlead⟩ | ⟨u, hu, hstep⟩)
      · exact ⟨m, by omega, hlead⟩
      · exact ⟨n + 1, Nat.le_refl _, hu.1.step hstep⟩
    · rintro ⟨m, hm, hlead⟩
      obtain ⟨k, hk, hdist⟩ := hlead.exists_distance
      rcases Nat.lt_or_ge n k with hfar | hnear
      · obtain rfl : k = n + 1 := by omega
        exact .inr hdist.exists_before
      · exact .inl ⟨k, hnear, hdist.1⟩
  · rw [mem_fresh_fst, hfound, h.seen_iff]
    constructor
    · rintro ⟨⟨u, hu, hstep⟩, hnew⟩
      exact ⟨hu.1.step hstep, fun m hm hlead => hnew ⟨m, by omega, hlead⟩⟩
    · intro hdist
      refine ⟨hdist.exists_before, ?_⟩
      rintro ⟨m, hm, hlead⟩
      exact hdist.2 m (by omega) hlead

/-- Nothing from a level on is nearer than the level. -/
theorem le_of_mem (h : Layer next root n seen level)
    (hv : v ∈ (levels next rounds seen level).flatten) (hdist : Distance next root v m) :
    n ≤ m := by
  induction rounds generalizing n seen level with
  | zero => cases hv
  | succ rounds ih =>
    rw [flatten_levels_succ, List.mem_append] at hv
    rcases hv with hv | hv
    · exact Nat.le_of_eq (((h.level_iff v).mp hv).eq hdist)
    · exact Nat.le_of_succ_le (ih h.later hv)

end Layer

/-- A vertex is no further from the root than another one. -/
def NoFurther (next : Nat → List Nat) (root u v : Nat) : Prop :=
  ∀ m n, Distance next root u m → Distance next root v n → m ≤ n

/-- From a level on, the vertices are listed by distance. -/
theorem Layer.pairwise (h : Layer next root n seen level) :
    (levels next rounds seen level).flatten.Pairwise (NoFurther next root) := by
  induction rounds generalizing n seen level with
  | zero => exact .nil
  | succ rounds ih =>
    rw [flatten_levels_succ, List.pairwise_append]
    refine ⟨List.pairwise_of_forall_mem_list fun u hu v hv j k hj hk => ?_, ih h.later,
      fun u hu v hv j k hj hk => ?_⟩
    · rw [hj.eq ((h.level_iff u).mp hu), hk.eq ((h.level_iff v).mp hv)]
    · rw [hj.eq ((h.level_iff u).mp hu)]
      exact Nat.le_of_succ_le (h.later.le_of_mem hv hk)

end PatternAutomata.Search
