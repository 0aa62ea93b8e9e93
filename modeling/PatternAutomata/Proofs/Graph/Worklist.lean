import Mathlib.Algebra.BigOperators.Group.Finset.Basic
import Mathlib.Logic.Function.Iterate
import PatternAutomata.Graph.Worklist
import PatternAutomata.Proofs.Graph.BreadthFirst

/-!
# Worklists find what levels find

The search with a queue keeps the list of all that it has met.  It is what is fresh among
the root and the successors of all that has been taken (`Queue.Follows`), so it grows
towards what the search by levels lists and never beyond it.  Every step takes one more
vertex, so after as many steps as there are vertices to find, nothing waits, and what has
been taken is the whole list (`Queue.iterate_step_start`).

The search with a stack meets a vertex more than once.  What it still has to do is counted
by what waits and by the successors of what has not been found (`Stack.work`).  Every step
leaves one less, so it ends, and then it has found what the seeds lead to
(`Stack.iterate_step_start`).
-/

namespace PatternAutomata.Search

open Std (ExtTreeSet)

variable {next : Nat → List Nat} {n root v k : Nat}

/-! ## What is fresh, piece by piece -/

theorem fresh_append_snd (seen : ExtTreeSet Nat) (us vs : List Nat) :
    (fresh seen (us ++ vs)).2 = (fresh (fresh seen us).2 vs).2 := by
  induction us generalizing seen with
  | nil => rfl
  | cons u us ih =>
    rw [List.cons_append, fresh, fresh]
    by_cases hu : u ∈ seen
    · rw [if_pos hu, if_pos hu, ih]
    · rw [if_neg hu, if_neg hu]
      exact ih (seen.insert u)

/-- What is fresh at the front is fresh first. -/
theorem fresh_prefix {us vs : List Nat} (h : us <+: vs) (seen : ExtTreeSet Nat) :
    (fresh seen us).1 <+: (fresh seen vs).1 := by
  obtain ⟨rest, rfl⟩ := h
  rw [fresh_append]
  exact List.prefix_append _ _

/-! ## The queue -/

namespace Queue

variable {q : Queue}

/-- The successors of a vertex wait as far as they are fresh. -/
theorem foldl_meet (q : Queue) (vs : List Nat) :
    vs.foldl meet q =
      ⟨(fresh q.seen vs).2, q.order, q.waiting ++ (fresh q.seen vs).1⟩ := by
  induction vs generalizing q with
  | nil => simp [fresh]
  | cons v vs ih =>
    rw [List.foldl_cons, ih, meet, fresh]
    by_cases hv : v ∈ q.seen
    · rw [if_pos hv, if_pos hv]
    · rw [if_neg hv, if_neg hv]
      simp

/-- A vertex that is taken stands behind all others, and its fresh successors wait behind
all others. -/
theorem step_cons (next : Nat → List Nat) (seen : ExtTreeSet Nat) (order waiting : List Nat)
    (v : Nat) : step next ⟨seen, order, v :: waiting⟩ =
      ⟨(fresh seen (next v)).2, order ++ [v], waiting ++ (fresh seen (next v)).1⟩ :=
  foldl_meet _ _

theorem step_of_waiting_eq_nil (h : q.waiting = []) : q.step next = q := by
  rw [step, h]

/-- All that has been met is what is fresh among the root and the successors of what has
been taken, and it is the front of what the search by levels lists. -/
structure Follows (next : Nat → List Nat) (n root : Nat) (q : Queue) : Prop where
  listed : q.order ++ q.waiting = (fresh ∅ (root :: q.order.flatMap next)).1
  seen_eq : q.seen = (fresh ∅ (root :: q.order.flatMap next)).2
  listed_prefix : q.order ++ q.waiting <+: reach next (n + 1) [root]

theorem follows_start (next : Nat → List Nat) (n root : Nat) :
    (start root).Follows next n root := by
  have hfresh : fresh ∅ [root] = ([root], (∅ : ExtTreeSet Nat).insert root) := by
    rw [fresh, if_neg ExtTreeSet.not_mem_empty, fresh]
  refine ⟨?_, ?_, ?_⟩
  · simp [start, hfresh]
  · simp [start, hfresh]
  · obtain ⟨rest, hrest⟩ := reach_eq_cons next n root
    rw [hrest]
    exact ⟨rest, rfl⟩

/-- One more vertex is taken, and all that follows it has been met then. -/
theorem Follows.step (hnext : ∀ v, n ≤ v → next v = []) (h : q.Follows next n root) :
    (q.step next).Follows next n root := by
  obtain ⟨seen, order, waiting⟩ := q
  cases waiting with
  | nil => exact h
  | cons v waiting =>
    obtain ⟨hlisted, hseen, hprefix⟩ := h
    have hmore : root :: (order ++ [v]).flatMap next = (root :: order.flatMap next) ++ next v := by
      simp
    have htaken : order ++ [v] <+: reach next (n + 1) [root] :=
      (List.prefix_append _ waiting).trans (by simpa using hprefix)
    have hall : order ++ [v] ++ (waiting ++ (fresh seen (next v)).1) =
        (fresh ∅ (root :: (order ++ [v]).flatMap next)).1 := by
      rw [hmore, fresh_append, ← hlisted, ← hseen]
      simp
    rw [step_cons]
    refine ⟨hall, ?_, ?_⟩
    · rw [hmore, fresh_append_snd, ← hseen]
    · rw [hall, reach_eq_fresh hnext, List.singleton_append]
      obtain ⟨rest, hrest⟩ := htaken
      refine fresh_prefix ((List.prefix_cons_inj root).mpr ?_) ∅
      rw [← hrest]
      exact ⟨rest.flatMap next, List.flatMap_append.symm⟩

/-- Where nothing waits, all that the root leads to has been taken. -/
theorem Follows.order_eq (hnext : ∀ v, n ≤ v → next v = []) (h : q.Follows next n root)
    (hdone : q.waiting = []) : q.order = reach next (n + 1) [root] := by
  obtain ⟨hlisted, -, hprefix⟩ := h
  rw [hdone, List.append_nil] at hlisted hprefix
  have hmet : ∀ v, v ∈ q.order ↔ v = root ∨ v ∈ q.order.flatMap next := by
    intro v
    conv_lhs => rw [hlisted]
    rw [mem_fresh_fst, and_iff_left ExtTreeSet.not_mem_empty, List.mem_cons]
  have hall : ∀ v, Leads next root v → v ∈ q.order := by
    intro v hleads
    induction hleads with
    | refl => exact (hmet root).mpr (.inl rfl)
    | tail _ hstep ih => exact (hmet _).mpr (.inr (List.mem_flatMap.mpr ⟨_, ih, hstep⟩))
  refine hprefix.eq_of_length_le ?_
  refine ((nodup_reach next (n + 1) [root]).subperm fun v hv => ?_).length_le
  obtain ⟨u, hu, hleads⟩ := (mem_reach_iff hnext).mp hv
  rw [List.mem_singleton.mp hu] at hleads
  exact hall v hleads

theorem length_order_step (h : q.waiting ≠ []) :
    (q.step next).order.length = q.order.length + 1 := by
  obtain ⟨seen, order, waiting⟩ := q
  cases waiting with
  | nil => exact absurd rfl h
  | cons v waiting => rw [step_cons, List.length_append, List.length_singleton]

/-- As long as something waits, every step takes a vertex. -/
theorem waiting_eq_nil_or_le (next : Nat → List Nat) (q : Queue) (k : Nat) :
    ((step next)^[k] q).waiting = [] ∨ k ≤ ((step next)^[k] q).order.length := by
  induction k with
  | zero => exact .inr (Nat.zero_le _)
  | succ k ih =>
    rw [Function.iterate_succ_apply']
    by_cases hdone : ((step next)^[k] q).waiting = []
    · rw [step_of_waiting_eq_nil hdone]
      exact .inl hdone
    · rw [length_order_step hdone]
      exact .inr (Nat.succ_le_succ (ih.resolve_left hdone))

/-- After a step for each vertex that is to be found, a queue is empty, and the vertices have
been taken in the order of the search by levels. -/
theorem iterate_step_start (hnext : ∀ v, n ≤ v → next v = [])
    (hk : (reach next (n + 1) [root]).length ≤ k) :
    ((step next)^[k] (start root)).waiting = [] ∧
      ((step next)^[k] (start root)).order = reach next (n + 1) [root] := by
  have hfollows : ((step next)^[k] (start root)).Follows next n root :=
    Function.Iterate.rec (Follows next n root) (follows_start ..) (fun _ h => h.step hnext) k
  have hdone : ((step next)^[k] (start root)).waiting = [] := by
    rcases waiting_eq_nil_or_le next (start root) k with hdone | hle
    · exact hdone
    · have hlength := hfollows.listed_prefix.length_le
      rw [List.length_append] at hlength
      exact List.length_eq_zero_iff.mp (by omega)
  exact ⟨hdone, hfollows.order_eq hnext hdone⟩

end Queue

/-! ## The stack -/

namespace Stack

variable {s : Stack} {seeds : List Nat}

theorem step_of_mem {found : ExtTreeSet Nat} (h : v ∈ found) (waiting : List Nat) :
    step next ⟨found, v :: waiting⟩ = ⟨found, waiting⟩ := if_pos h

theorem step_of_notMem {found : ExtTreeSet Nat} (h : v ∉ found) (waiting : List Nat) :
    step next ⟨found, v :: waiting⟩ = ⟨found.insert v, (next v).reverse ++ waiting⟩ := if_neg h

theorem step_of_waiting_eq_nil (h : s.waiting = []) : s.step next = s := by
  rw [step, h]

/-- What has been found and what waits is what the seeds lead to, as far as it has been
followed. -/
structure Follows (next : Nat → List Nat) (seeds : List Nat) (s : Stack) : Prop where
  found_leads : ∀ v ∈ s.found, ∃ u ∈ seeds, Leads next u v
  waiting_leads : ∀ v ∈ s.waiting, ∃ u ∈ seeds, Leads next u v
  seed_met : ∀ v ∈ seeds, v ∈ s.found ∨ v ∈ s.waiting
  step_met : ∀ u ∈ s.found, ∀ v ∈ next u, v ∈ s.found ∨ v ∈ s.waiting

theorem follows_start (next : Nat → List Nat) (seeds : List Nat) :
    (start seeds).Follows next seeds where
  found_leads _ hv := absurd hv ExtTreeSet.not_mem_empty
  waiting_leads v hv := ⟨v, List.mem_reverse.mp hv, .refl⟩
  seed_met _ hv := .inr (List.mem_reverse.mpr hv)
  step_met _ hu := absurd hu ExtTreeSet.not_mem_empty

/-- What has been met stays so. -/
theorem met_step (h : v ∈ s.found ∨ v ∈ s.waiting) :
    v ∈ (s.step next).found ∨ v ∈ (s.step next).waiting := by
  obtain ⟨found, waiting⟩ := s
  cases waiting with
  | nil => exact h
  | cons u waiting =>
    by_cases hmem : u ∈ found
    · -- The vertex is passed over, and it is found already.
      rw [step_of_mem hmem]
      rcases h with h | h
      · exact .inl h
      · rcases List.mem_cons.mp h with rfl | h
        · exact .inl hmem
        · exact .inr h
    · rw [step_of_notMem hmem, mem_insert_iff, List.mem_append]
      rcases h with h | h
      · exact .inl (.inr h)
      · rcases List.mem_cons.mp h with rfl | h
        · exact .inl (.inl rfl)
        · exact .inr (.inr h)

theorem Follows.step (h : s.Follows next seeds) : (s.step next).Follows next seeds := by
  have hseed : ∀ v ∈ seeds, v ∈ (s.step next).found ∨ v ∈ (s.step next).waiting :=
    fun v hv => met_step (h.seed_met v hv)
  have hstep : ∀ u ∈ s.found, ∀ v ∈ next u,
      v ∈ (s.step next).found ∨ v ∈ (s.step next).waiting :=
    fun u hu v hv => met_step (h.step_met u hu v hv)
  obtain ⟨found, waiting⟩ := s
  cases waiting with
  | nil => exact h
  | cons v waiting =>
    obtain ⟨hv, hwaiting⟩ := List.forall_mem_cons.mp h.waiting_leads
    by_cases hmem : v ∈ found
    · rw [step_of_mem hmem] at hseed hstep ⊢
      exact ⟨h.found_leads, hwaiting, hseed, hstep⟩
    · rw [step_of_notMem hmem] at hseed hstep ⊢
      refine ⟨?_, ?_, hseed, ?_⟩
      · intro w hw
        rcases mem_insert_iff.mp hw with rfl | hw
        · exact hv
        · exact h.found_leads w hw
      · intro w hw
        rcases List.mem_append.mp hw with hw | hw
        · obtain ⟨u, hu, hleads⟩ := hv
          exact ⟨u, hu, hleads.tail (List.mem_reverse.mp hw)⟩
        · exact hwaiting w hw
      · intro u hu w hw
        rcases mem_insert_iff.mp hu with rfl | hu
        · exact .inr (List.mem_append_left _ (List.mem_reverse.mpr hw))
        · exact hstep u hu w hw

/-- Where nothing waits, all that the seeds lead to has been found. -/
theorem Follows.mem_found_iff (h : s.Follows next seeds) (hdone : s.waiting = []) :
    v ∈ s.found ↔ ∃ u ∈ seeds, Leads next u v := by
  obtain ⟨hfound, -, hseed, hstep⟩ := h
  have hmet : ∀ {w}, w ∈ s.found ∨ w ∈ s.waiting → w ∈ s.found := by
    intro w hw
    simpa [hdone] using hw
  refine ⟨hfound v, ?_⟩
  rintro ⟨u, hu, hleads⟩
  induction hleads with
  | refl => exact hmet (hseed u hu)
  | tail _ hnext ih => exact hmet (hstep _ ih _ hnext)

/-! ## What a stack still has to do -/

/-- The number of vertices that wait, and of those that will wait behind what has not been
found. -/
def work (next : Nat → List Nat) (n : Nat) (s : Stack) : Nat :=
  s.waiting.length + ∑ v ∈ (Finset.range n).filter (· ∉ s.found), (next v).length

theorem sum_insert (hnext : ∀ v, n ≤ v → next v = []) {found : ExtTreeSet Nat} (hv : v ∉ found) :
    ∑ u ∈ (Finset.range n).filter (· ∉ found.insert v), (next u).length + (next v).length =
      ∑ u ∈ (Finset.range n).filter (· ∉ found), (next u).length := by
  have herase : (Finset.range n).filter (· ∉ found.insert v) =
      ((Finset.range n).filter (· ∉ found)).erase v := by
    ext u
    simp only [Finset.mem_filter, Finset.mem_erase, mem_insert_iff]
    constructor
    · rintro ⟨hu, hnew⟩
      exact ⟨fun heq => hnew (.inl heq.symm), hu, fun h => hnew (.inr h)⟩
    · rintro ⟨hne, hu, hnew⟩
      exact ⟨hu, fun h => h.elim (fun heq => hne heq.symm) hnew⟩
  rw [herase]
  by_cases hlt : v < n
  · exact Finset.sum_erase_add _ _ (Finset.mem_filter.mpr ⟨Finset.mem_range.mpr hlt, hv⟩)
  · have hout : v ∉ (Finset.range n).filter (· ∉ found) := by simp [hlt]
    rw [Finset.erase_eq_of_notMem hout, hnext v (Nat.le_of_not_lt hlt), List.length_nil,
      Nat.add_zero]

/-- As long as something waits, every step leaves one less to do. -/
theorem work_step (hnext : ∀ v, n ≤ v → next v = []) (h : s.waiting ≠ []) :
    (s.step next).work next n + 1 = s.work next n := by
  obtain ⟨found, waiting⟩ := s
  cases waiting with
  | nil => exact absurd rfl h
  | cons v waiting =>
    by_cases hmem : v ∈ found
    · rw [step_of_mem hmem]
      simp only [work, List.length_cons]
      omega
    · have hsum := sum_insert hnext hmem
      rw [step_of_notMem hmem]
      simp only [work, List.length_append, List.length_reverse, List.length_cons]
      omega

/-- After a step for each vertex that will ever wait, a stack is empty. -/
theorem waiting_iterate_eq_nil (hnext : ∀ v, n ≤ v → next v = []) (hk : s.work next n ≤ k) :
    ((step next)^[k] s).waiting = [] := by
  induction k generalizing s with
  | zero =>
    have hle : s.waiting.length ≤ s.work next n := Nat.le_add_right _ _
    exact List.length_eq_zero_iff.mp (Nat.le_zero.mp (hle.trans hk))
  | succ k ih =>
    by_cases hdone : s.waiting = []
    · rw [Function.iterate_fixed (step_of_waiting_eq_nil hdone)]
      exact hdone
    · have hless := work_step hnext hdone
      rw [Function.iterate_succ_apply]
      exact ih (by omega)

/-- After a step for each seed and for each successor, a stack is empty, and what has been
found is what the search by levels lists. -/
theorem iterate_step_start (hnext : ∀ v, n ≤ v → next v = [])
    (hk : seeds.length + ∑ v ∈ Finset.range n, (next v).length ≤ k) :
    ((step next)^[k] (start seeds)).waiting = [] ∧
      ((step next)^[k] (start seeds)).found = ExtTreeSet.ofList (reach next (n + 1) seeds) := by
  have hfollows : ((step next)^[k] (start seeds)).Follows next seeds :=
    Function.Iterate.rec (Follows next seeds) (follows_start ..) (fun _ h => h.step) k
  have hwork : (start seeds).work next n ≤ k := by
    have hall : (Finset.range n).filter (· ∉ (start seeds).found) = Finset.range n :=
      Finset.filter_true_of_mem fun _ _ => ExtTreeSet.not_mem_empty
    rw [work, hall, start, List.length_reverse]
    exact hk
  have hdone := waiting_iterate_eq_nil hnext hwork
  refine ⟨hdone, ExtTreeSet.ext_mem fun v => ?_⟩
  rw [hfollows.mem_found_iff hdone, ExtTreeSet.mem_ofList, List.contains_iff_mem,
    mem_reach_iff hnext]

end Stack

end PatternAutomata.Search
