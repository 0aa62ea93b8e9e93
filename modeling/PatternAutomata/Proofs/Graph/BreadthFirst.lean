import PatternAutomata.Proofs.Graph.Copy
import PatternAutomata.Proofs.Graph.Distance

/-!
# Breadth-first order

A list is in breadth-first order if it starts with the root, holds what the root leads
to and each vertex once, and puts a nearer vertex in front of one that is further away.
The source of a vertex is the first listed vertex that it follows.  Vertices stand in
the order of their sources, and behind the same source in the order of its successors
(`BreadthFirst`).

There is only one such list (`BreadthFirst.unique`), and a search gives it
(`breadthFirst_reach`).  Behind the roots, a search lists what is fresh among the
successors of all that it lists (`reach_eq_fresh`).  This ties the order of the vertices
to that of their sources.
-/

namespace PatternAutomata.Search

open Std (ExtTreeSet)

variable {next : Nat → List Nat} {seen : ExtTreeSet Nat} {level order order' : List Nat}
variable {root u v m n p q : Nat}

/-! ## What is listed, from its successors -/

theorem fresh_append (seen : ExtTreeSet Nat) (us vs : List Nat) :
    (fresh seen (us ++ vs)).1 = (fresh seen us).1 ++ (fresh (fresh seen us).2 vs).1 := by
  induction us generalizing seen with
  | nil => rfl
  | cons u us ih =>
    rw [List.cons_append, fresh, fresh]
    by_cases hu : u ∈ seen
    · rw [if_pos hu, if_pos hu, ih]
    · rw [if_neg hu, if_neg hu]
      exact congrArg (u :: ·) (ih (seen.insert u))

/-- Behind a level is listed what is fresh among the successors of all that is listed. -/
theorem flatten_levels_eq_fresh {rounds : Nat} (hnext : ∀ v, n ≤ v → next v = [])
    (henough : Enough n rounds seen level) :
    (levels next rounds seen level).flatten =
      level ++ (fresh seen ((levels next rounds seen level).flatten.flatMap next)).1 := by
  induction rounds generalizing seen level with
  | zero => exact absurd henough.1 (by omega)
  | succ rounds ih =>
    rw [flatten_levels_succ, List.flatMap_append, fresh_append]
    congr 1
    cases hfound : (fresh seen (level.flatMap next)).1 with
    | nil =>
      rw [levels_nil, List.flatten_nil, List.flatMap_nil, fresh, List.append_nil]
    | cons v vs =>
      rw [← hfound]
      have hv : v ∈ (fresh seen (level.flatMap next)).1 := by
        rw [hfound]
        exact List.mem_cons_self
      exact ih (henough.fresh hnext hv)

/-- A search lists what is fresh among the roots and the successors of all that it lists. -/
theorem reach_eq_fresh (hnext : ∀ v, n ≤ v → next v = []) (roots : List Nat) :
    reach next (n + 1) roots =
      (fresh ∅ (roots ++ (reach next (n + 1) roots).flatMap next)).1 := by
  rw [fresh_append]
  exact flatten_levels_eq_fresh hnext (enough_roots n roots)

/-- What is fresh stands in the order of its first occurrences. -/
theorem pairwise_fresh (seen : ExtTreeSet Nat) (vs : List Nat) :
    (fresh seen vs).1.Pairwise fun u v => vs.idxOf u < vs.idxOf v := by
  induction vs generalizing seen with
  | nil => exact .nil
  | cons v vs ih =>
    -- All that is fresh behind `v` is found one place later than in `vs`.
    have hlater : ∀ {seen' : ExtTreeSet Nat}, v ∈ seen' → ∀ u ∈ (fresh seen' vs).1,
        (v :: vs).idxOf u = vs.idxOf u + 1 := by
      intro seen' hseen u hu
      refine List.idxOf_cons_ne vs ?_
      rintro rfl
      exact (mem_fresh_fst.mp hu).2 hseen
    have hshift : ∀ {seen' : ExtTreeSet Nat}, v ∈ seen' →
        (fresh seen' vs).1.Pairwise fun u w => (v :: vs).idxOf u < (v :: vs).idxOf w := by
      intro seen' hseen
      refine (ih seen').imp_of_mem fun {u w} hu hw hlt => ?_
      rw [hlater hseen u hu, hlater hseen w hw]
      exact Nat.succ_lt_succ hlt
    rw [fresh]
    by_cases hv : v ∈ seen
    · rw [if_pos hv]
      exact hshift hv
    · rw [if_neg hv]
      have hseen : v ∈ seen.insert v := mem_insert_iff.mpr (.inl rfl)
      refine .cons (fun u hu => ?_) (hshift hseen)
      rw [hlater hseen u hu, List.idxOf_cons_self]
      exact Nat.succ_pos _

/-! ## Sources -/

/-- The first listed vertex that a vertex follows. -/
def source? (next : Nat → List Nat) (order : List Nat) (v : Nat) : Option Nat :=
  order.find? fun u => v ∈ next u

theorem source?_cons_of_mem (h : v ∈ next u) (us : List Nat) :
    source? next (u :: us) v = some u := by
  rw [source?, List.find?_cons, decide_eq_true h]

theorem source?_cons_of_notMem (h : v ∉ next u) (us : List Nat) :
    source? next (u :: us) v = source? next us v := by
  rw [source?, List.find?_cons, decide_eq_false h, source?]

theorem mem_of_source? (h : source? next order v = some p) : p ∈ order ∧ v ∈ next p := by
  have hfollows := List.find?_some h
  exact ⟨List.mem_of_find?_eq_some h, of_decide_eq_true hfollows⟩

theorem exists_source? (hu : u ∈ order) (hv : v ∈ next u) : ∃ p, source? next order v = some p :=
  Option.isSome_iff_exists.mp (List.find?_isSome.mpr ⟨u, hu, decide_eq_true hv⟩)

/-- No vertex that leads to `v` is listed in front of the source of `v`. -/
theorem idxOf_source?_le (h : source? next order v = some p) (hu : u ∈ order) (hv : v ∈ next u) :
    order.idxOf p ≤ order.idxOf u := by
  induction order with
  | nil => cases hu
  | cons first others ih =>
    by_cases hfirst : v ∈ next first
    · rw [source?_cons_of_mem hfirst] at h
      cases h
      rw [List.idxOf_cons_self]
      exact Nat.zero_le _
    · rw [source?_cons_of_notMem hfirst] at h
      have hne : ∀ {w}, v ∈ next w → first ≠ w := by
        rintro w hw rfl
        exact hfirst hw
      rw [List.idxOf_cons_ne _ (hne (mem_of_source? h).2), List.idxOf_cons_ne _ (hne hv)]
      exact Nat.succ_le_succ (ih h ((List.mem_cons.mp hu).resolve_left (hne hv).symm))

/-- Among the successors of all that is listed, vertices stand in the order of their
sources, and those of one source in the order of its successors. -/
theorem idxOf_flatMap_lt_iff (hu : source? next order u = some p)
    (hv : source? next order v = some q) :
    (order.flatMap next).idxOf u < (order.flatMap next).idxOf v ↔
      order.idxOf p < order.idxOf q ∨ p = q ∧ (next p).idxOf u < (next p).idxOf v := by
  induction order with
  | nil => cases hu
  | cons first others ih =>
    have hne : ∀ {w r}, w ∉ next first → source? next others w = some r → first ≠ r := by
      intro w r hw hr heq
      rw [heq] at hw
      exact hw (mem_of_source? hr).2
    rw [List.flatMap_cons]
    by_cases hfu : u ∈ next first
    · rw [source?_cons_of_mem hfu] at hu
      obtain rfl := Option.some.inj hu
      rw [List.idxOf_append_of_mem hfu, List.idxOf_cons_self]
      by_cases hfv : v ∈ next first
      · rw [source?_cons_of_mem hfv] at hv
        obtain rfl := Option.some.inj hv
        rw [List.idxOf_append_of_mem hfv, List.idxOf_cons_self]
        simp
      · rw [source?_cons_of_notMem hfv] at hv
        rw [List.idxOf_append_of_notMem hfv, List.idxOf_cons_ne _ (hne hfv hv)]
        have hlt := List.idxOf_lt_length_of_mem hfu
        exact iff_of_true (by omega) (.inl (Nat.succ_pos _))
    · rw [source?_cons_of_notMem hfu] at hu
      rw [List.idxOf_append_of_notMem hfu, List.idxOf_cons_ne _ (hne hfu hu)]
      by_cases hfv : v ∈ next first
      · rw [source?_cons_of_mem hfv] at hv
        obtain rfl := Option.some.inj hv
        rw [List.idxOf_append_of_mem hfv, List.idxOf_cons_self]
        have hlt := List.idxOf_lt_length_of_mem hfv
        refine iff_of_false (by omega) ?_
        rintro (hlt | ⟨heq, -⟩)
        · exact Nat.not_lt_zero _ hlt
        · exact hne hfu hu heq.symm
      · rw [source?_cons_of_notMem hfv] at hv
        rw [List.idxOf_append_of_notMem hfv, List.idxOf_cons_ne _ (hne hfv hv),
          Nat.add_lt_add_iff_left, Nat.succ_lt_succ_iff]
        exact ih hu hv

/-! ## Places in a list -/

theorem rel_of_idxOf_lt {R : Nat → Nat → Prop} (h : order.Pairwise R) (hu : u ∈ order)
    (hv : v ∈ order) (hlt : order.idxOf u < order.idxOf v) : R u v := by
  have hu' := List.idxOf_lt_length_of_mem hu
  have hv' := List.idxOf_lt_length_of_mem hv
  have hrel := List.pairwise_iff_getElem.mp h _ _ hu' hv' hlt
  rwa [List.getElem_idxOf hu', List.getElem_idxOf hv'] at hrel

theorem pairwise_idxOf (h : order.Nodup) :
    order.Pairwise fun u v => order.idxOf u < order.idxOf v := by
  refine List.pairwise_iff_getElem.mpr fun i j hi hj hlt => ?_
  rwa [h.idxOf_getElem, h.idxOf_getElem]

/-- Behind the root, a list that is fresh among its successors stands in their order. -/
theorem idxOf_lt_iff_of_eq_fresh (h : order = (fresh ∅ (root :: order.flatMap next)).1)
    (hu : u ∈ order) (hv : v ∈ order) (hur : u ≠ root) (hvr : v ≠ root) :
    order.idxOf u < order.idxOf v ↔
      (order.flatMap next).idxOf u < (order.flatMap next).idxOf v := by
  have hpairwise := pairwise_fresh ∅ (root :: order.flatMap next)
  rw [← h] at hpairwise
  have hkept : ∀ {u v}, u ∈ order → v ∈ order → u ≠ root → v ≠ root →
      order.idxOf u < order.idxOf v →
        (order.flatMap next).idxOf u < (order.flatMap next).idxOf v := by
    intro u v hu hv hur hvr hlt
    have hfirst := rel_of_idxOf_lt hpairwise hu hv hlt
    rw [List.idxOf_cons_ne _ hur.symm, List.idxOf_cons_ne _ hvr.symm] at hfirst
    exact Nat.lt_of_succ_lt_succ hfirst
  refine ⟨hkept hu hv hur hvr, fun hlt => ?_⟩
  rcases Nat.lt_trichotomy (order.idxOf u) (order.idxOf v) with hless | heq | hmore
  · exact hless
  · rw [(List.idxOf_inj hu).mp heq] at hlt
    exact absurd hlt (Nat.lt_irrefl _)
  · exact absurd (hkept hv hu hvr hur hmore) (Nat.lt_asymm hlt)

/-! ## Breadth-first order -/

/-- A list is the breadth-first order of all that a root leads to. -/
structure BreadthFirst (next : Nat → List Nat) (root : Nat) (order : List Nat) : Prop where
  /-- The root comes first. -/
  head?_eq : order.head? = some root
  /-- No vertex is listed twice. -/
  nodup : order.Nodup
  /-- What is listed is what the root leads to. -/
  mem_iff : ∀ v, v ∈ order ↔ Leads next root v
  /-- No vertex is listed in front of a nearer one. -/
  pairwise : order.Pairwise (NoFurther next root)
  /-- Every vertex but the root follows a listed one. -/
  exists_source : ∀ v ∈ order, v ≠ root → ∃ p, source? next order v = some p
  /-- Vertices stand in the order of their sources, and behind one source in the order of its
  successors. -/
  idxOf_lt_iff : ∀ u ∈ order, ∀ v ∈ order, u ≠ root → v ≠ root → ∀ p q,
    source? next order u = some p → source? next order v = some q →
      (order.idxOf u < order.idxOf v ↔
        order.idxOf p < order.idxOf q ∨ p = q ∧ (next p).idxOf u < (next p).idxOf v)

/-- A search goes breadth first. -/
theorem breadthFirst_reach (hnext : ∀ v, n ≤ v → next v = []) (root : Nat) :
    BreadthFirst next root (reach next (n + 1) [root]) where
  head?_eq := by
    obtain ⟨rest, hrest⟩ := reach_eq_cons next n root
    rw [hrest, List.head?_cons]
  nodup := nodup_reach _ _ _
  mem_iff v := by
    rw [mem_reach_iff hnext]
    simp
  pairwise := (Layer.first next root).pairwise
  exists_source v hv hne := by
    obtain ⟨u, hu, hleads⟩ := (mem_reach_iff hnext).mp hv
    cases List.mem_singleton.mp hu
    cases hleads with
    | refl => exact absurd rfl hne
    | @tail w _ hbefore hstep =>
      exact exists_source? ((mem_reach_iff hnext).mpr ⟨root, hu, hbefore⟩) hstep
  idxOf_lt_iff u hu v hv hur hvr p q hp hq := by
    rw [idxOf_lt_iff_of_eq_fresh (reach_eq_fresh hnext [root]) hu hv hur hvr]
    exact idxOf_flatMap_lt_iff hp hq

namespace BreadthFirst

theorem mem_of_distance (h : BreadthFirst next root order) (hv : Distance next root v n) :
    v ∈ order := (h.mem_iff v).mpr hv.leads

theorem idxOf_lt_of_lt (h : BreadthFirst next root order) (hu : Distance next root u m)
    (hv : Distance next root v n) (hlt : m < n) : order.idxOf u < order.idxOf v := by
  refine Nat.lt_of_not_le fun hle => ?_
  rcases Nat.lt_or_eq_of_le hle with hmore | heq
  · have hback := rel_of_idxOf_lt h.pairwise (h.mem_of_distance hv) (h.mem_of_distance hu) hmore
    exact absurd (hback n m hv hu) (Nat.not_le_of_lt hlt)
  · rw [(List.idxOf_inj (h.mem_of_distance hv)).mp heq] at hv
    exact Nat.ne_of_lt hlt (hu.eq hv)

/-- The source of a vertex is one step nearer. -/
theorem distance_source (h : BreadthFirst next root order) (hv : Distance next root v (n + 1))
    (hp : source? next order v = some p) : Distance next root p n := by
  obtain ⟨u, hu, hstep⟩ := hv.exists_before
  obtain ⟨hmem, hfollows⟩ := mem_of_source? hp
  obtain ⟨m, hm⟩ := exists_distance ((h.mem_iff p).mp hmem)
  have hge : n + 1 ≤ m + 1 := hv.le (hm.1.step hfollows)
  have hle : m ≤ n := by
    refine Nat.le_of_not_lt fun hlt => ?_
    have hfirst := idxOf_source?_le hp (h.mem_of_distance hu) hstep
    exact absurd (h.idxOf_lt_of_lt hu hm hlt) (Nat.not_lt_of_le hfirst)
  obtain rfl : m = n := by omega
  exact hm

/-- Two breadth-first orders put any two vertices in the same order. -/
theorem idxOf_lt_of_idxOf_lt (h : BreadthFirst next root order)
    (h' : BreadthFirst next root order') (hu : Distance next root u m)
    (hv : Distance next root v n) (hlt : order.idxOf u < order.idxOf v) :
    order'.idxOf u < order'.idxOf v := by
  have hle : m ≤ n :=
    rel_of_idxOf_lt h.pairwise (h.mem_of_distance hu) (h.mem_of_distance hv) hlt m n hu hv
  rcases Nat.lt_or_eq_of_le hle with hfar | rfl
  · exact h'.idxOf_lt_of_lt hu hv hfar
  · clear hle
    -- At one distance the sources decide, and these are one step nearer.
    induction m generalizing u v with
    | zero =>
      rw [hu.eq_root, hv.eq_root] at hlt
      exact absurd hlt (Nat.lt_irrefl _)
    | succ m ih =>
      have hroot : ∀ {w}, Distance next root w (m + 1) → w ≠ root := by
        rintro w hw rfl
        exact absurd hw.root_eq_zero (Nat.succ_ne_zero m)
      have hsource : ∀ {w}, Distance next root w (m + 1) → ∃ p, Distance next root p m ∧
          source? next order w = some p ∧ source? next order' w = some p := by
        intro w hw
        obtain ⟨p, hp⟩ := h.exists_source w (h.mem_of_distance hw) (hroot hw)
        obtain ⟨p', hp'⟩ := h'.exists_source w (h'.mem_of_distance hw) (hroot hw)
        have hdist := h.distance_source hw hp
        have hdist' := h'.distance_source hw hp'
        have hfirst := idxOf_source?_le hp (h.mem_of_distance hdist') (mem_of_source? hp').2
        have hfirst' := idxOf_source?_le hp' (h'.mem_of_distance hdist) (mem_of_source? hp).2
        have heq : order.idxOf p = order.idxOf p' := by
          refine Nat.le_antisymm hfirst (Nat.le_of_not_lt fun hless => ?_)
          exact absurd (ih hdist hless hdist') (Nat.not_lt_of_le hfirst')
        rw [← (List.idxOf_inj (h.mem_of_distance hdist)).mp heq] at hp'
        exact ⟨p, hdist, hp, hp'⟩
      obtain ⟨p, hdistp, hp, hp'⟩ := hsource hu
      obtain ⟨q, hdistq, hq, hq'⟩ := hsource hv
      rw [h'.idxOf_lt_iff u (h'.mem_of_distance hu) v (h'.mem_of_distance hv) (hroot hu)
        (hroot hv) p q hp' hq']
      rw [h.idxOf_lt_iff u (h.mem_of_distance hu) v (h.mem_of_distance hv) (hroot hu)
        (hroot hv) p q hp hq] at hlt
      exact hlt.imp_left fun hless => ih hdistp hless hdistq

/-- There is only one breadth-first order. -/
theorem unique (h : BreadthFirst next root order) (h' : BreadthFirst next root order') :
    order = order' := by
  have hperm : order.Perm order' :=
    (List.perm_ext_iff_of_nodup h.nodup h'.nodup).mpr fun v =>
      (h.mem_iff v).trans (h'.mem_iff v).symm
  have hpairwise : order.Pairwise fun u v => order'.idxOf u < order'.idxOf v := by
    refine (pairwise_idxOf h.nodup).imp_of_mem fun {u v} hu hv hlt => ?_
    obtain ⟨m, hm⟩ := exists_distance ((h.mem_iff u).mp hu)
    obtain ⟨n, hn⟩ := exists_distance ((h.mem_iff v).mp hv)
    exact h.idxOf_lt_of_idxOf_lt h' hm hn hlt
  refine hperm.eq_of_pairwise (fun u v _ _ hlt hmore => ?_) hpairwise (pairwise_idxOf h'.nodup)
  exact absurd hmore (Nat.lt_asymm hlt)

end BreadthFirst

end PatternAutomata.Search

/-! ## The states that a state leads to -/

namespace PatternAutomata.Graph

theorem breadthFirst_reachable (g : Graph) (root : Nat) :
    Search.BreadthFirst g.targets root (g.reachable root) :=
  Search.breadthFirst_reach (fun _ => targets_of_size_le) root

/-- Further rounds find no more states. -/
theorem reach_targets_eq (g : Graph) (root : Nat) {rounds : Nat} (h : g.size < rounds) :
    Search.reach g.targets rounds [root] = g.reachable root := by
  obtain ⟨more, rfl⟩ := Nat.exists_eq_add_of_le' (Nat.zero_lt_of_lt h)
  exact Search.reach_eq_of_le (fun _ => targets_of_size_le) (Nat.le_of_lt_succ h) [root]

end PatternAutomata.Graph
