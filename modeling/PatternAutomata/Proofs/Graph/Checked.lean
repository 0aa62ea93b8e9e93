import PatternAutomata.Graph.Checked
import PatternAutomata.Proofs.Graph.Worklist

/-!
# Checked operations come out as the unchecked ones

Where the ends of the operands are states, an operation that checks its accesses finds a
state every time, and the same comes out as without the checks.

For a copy this takes more.  While it is searched for, a copier goes through the states as
a queue does, and the name of a state is its place among those that have been met
(`Copier.Matches`).  When the names are filled with steps, the old states are read as they
were, since only new states are written (`Graph.filled`).  In the end the new states are
the copies in the order of the search (`Graph.copy?_eq`).
-/

namespace PatternAutomata

open Std (TreeMap)

namespace Graph

variable {g : Graph} {lower upper inner : Fragment} {source id : Nat}

/-! ## Fragments -/

theorem link?_eq (h : source < g.size) (label : Token) (target : Nat) :
    g.link? source label target = some (g.link source label target) := if_pos h

theorem skip?_eq (h : source < g.size) (target : Nat) :
    g.skip? source target = some (g.skip source target) := if_pos h

theorem transitions?_eq (h : id < g.size) : g.transitions? id = some (g.transitions id) := by
  have hid : id < g.states.size := h
  rw [transitions?, transitions, Array.getElem?_eq_getElem hid]
  rfl

/-- With two more states, the first of them is a state, and so are the old ones. -/
theorem lt_size_grow_grow (h : id ≤ g.size) : id < g.grow.grow.size := by
  rw [size_grow, size_grow]
  omega

theorem nextPair_start_lt (g : Graph) : g.nextPair.start < g.grow.grow.size :=
  lt_size_grow_grow (Nat.le_refl g.size)

theorem atom?_eq (g : Graph) (label : Token) : g.atom? label = some (g.atom label) := by
  rw [atom?, link?_eq g.nextPair_start_lt]
  rfl

theorem blank?_eq (g : Graph) : g.blank? = some g.blank := by
  rw [blank?, skip?_eq g.nextPair_start_lt]
  rfl

theorem concat?_eq (h : lower.accept < g.size) (upper : Fragment) :
    g.concat? lower upper = some (g.concat lower upper) := by
  rw [concat?, skip?_eq h]
  rfl

theorem union?_eq (hlower : lower.accept < g.size) (hupper : upper.accept < g.size) :
    g.union? lower upper = some (g.union lower upper) := by
  have hlower' : lower.accept < g.grow.grow.size := lt_size_grow_grow hlower.le
  have hupper' : upper.accept < g.grow.grow.size := lt_size_grow_grow hupper.le
  simp only [union?, skip?_eq, size_skip, nextPair_start_lt, hlower', hupper',
    Option.bind_eq_bind, Option.bind_some]
  rfl

theorem star?_eq (h : inner.accept < g.size) : g.star? inner = some (g.star inner) := by
  have h' : inner.accept < g.grow.grow.size := lt_size_grow_grow h.le
  simp only [star?, skip?_eq, size_skip, nextPair_start_lt, h', Option.bind_eq_bind,
    Option.bind_some]
  rfl

theorem question?_eq (h : inner.accept < g.size) :
    g.question? inner = some (g.question inner) := by
  have hsize : g.blank.1.size = g.grow.grow.size := size_skip ..
  have hinner : inner.accept < g.blank.1.size := by
    rw [hsize]
    exact lt_size_grow_grow h.le
  have hnothing : g.blank.2.accept < g.blank.1.size := by
    rw [hsize, size_grow, size_grow]
    exact Nat.lt_succ_self _
  rw [question?, blank?_eq]
  exact union?_eq hinner hnothing

end Graph

/-! ## New states -/

namespace Graph

@[simp] theorem size_grow_iterate (g : Graph) (n : Nat) : (grow^[n] g).size = g.size + n := by
  induction n with
  | zero => rfl
  | succ n ih => rw [Function.iterate_succ_apply', size_grow, ih, Nat.add_assoc]

@[simp] theorem transitions_grow_iterate (g : Graph) (n id : Nat) :
    (grow^[n] g).transitions id = g.transitions id := by
  induction n with
  | zero => rfl
  | succ n ih => rw [Function.iterate_succ_apply', transitions_grow, ih]

/-- The graph has one more state for each state of a list, and the names are their places
behind the old states. -/
structure Named (g : Graph) (met : List Nat) (graph : Graph) (names : TreeMap Nat Nat) : Prop where
  graph_eq : graph = grow^[met.length] g
  names_eq : ∀ id, names[id]? = if id ∈ met then some (g.renamed met id) else none

namespace Named

variable {g : Graph} {id : Nat} {met : List Nat} {graph : Graph} {names : TreeMap Nat Nat}

theorem nothing (g : Graph) : g.Named [] g ∅ := ⟨rfl, fun _ => rfl⟩

/-- A state has a name if it has been met. -/
theorem mem_iff (h : g.Named met graph names) : id ∈ names ↔ id ∈ met := by
  rw [TreeMap.mem_iff_isSome_getElem?, h.names_eq]
  split
  · next hmem => exact iff_of_true rfl hmem
  · next hmem => exact iff_of_false Bool.false_ne_true hmem

/-- The next new state becomes the copy of a state that has not been met. -/
theorem snoc (h : g.Named met graph names) (hid : id ∉ met) :
    g.Named (met ++ [id]) graph.grow (names.insert id graph.size) where
  graph_eq := by
    rw [h.graph_eq, List.length_append, List.length_singleton, Function.iterate_succ_apply']
  names_eq u := by
    rw [TreeMap.getElem?_insert, h.names_eq, h.graph_eq, size_grow_iterate]
    by_cases heq : id = u
    · subst heq
      simp [renamed, List.idxOf_append_of_notMem hid]
    · have hne : ¬compare id u = .eq := mt Std.LawfulEqCmp.compare_eq_iff_eq.mp heq
      by_cases hu : u ∈ met
      · simp [hne, hu, renamed, List.idxOf_append_of_mem hu]
      · simp [hne, hu, Ne.symm heq]

end Named

end Graph

/-! ## The search -/

namespace Copier

variable {g : Graph} {c : Copier} {q : Search.Queue} {root : Nat}

/-- A copier has gone as far as a queue, and all that has been met is named. -/
structure Matches (g : Graph) (q : Search.Queue) (c : Copier) : Prop where
  order_eq : c.order = q.order
  waiting_eq : c.waiting = q.waiting
  seen_iff : ∀ id, id ∈ q.seen ↔ id ∈ q.order ++ q.waiting
  named : g.Named (q.order ++ q.waiting) c.graph c.names

theorem matches_start (g : Graph) (root : Nat) : Matches g (.start root) (start g root) where
  order_eq := rfl
  waiting_eq := rfl
  seen_iff id := by
    rw [Search.Queue.start, Search.mem_insert_iff, or_iff_left Std.ExtTreeSet.not_mem_empty,
      List.nil_append, List.mem_singleton, eq_comm]
  named := (Graph.Named.nothing g).snoc List.not_mem_nil

theorem Matches.meet (h : Matches g q c) (id : Nat) : Matches g (q.meet id) (c.meet id) := by
  have hnames : id ∈ c.names ↔ id ∈ q.seen := by rw [h.named.mem_iff, h.seen_iff]
  by_cases hmem : id ∈ q.seen
  · rw [Search.Queue.meet, if_pos hmem, Copier.meet, if_pos (hnames.mpr hmem)]
    exact h
  · rw [Search.Queue.meet, if_neg hmem, Copier.meet, if_neg (mt hnames.mp hmem)]
    refine ⟨h.order_eq, by rw [h.waiting_eq], fun u => ?_, ?_⟩
    · rw [Search.mem_insert_iff, h.seen_iff, ← List.append_assoc, List.mem_append,
        List.mem_append, List.mem_append, List.mem_singleton, or_comm, eq_comm]
    · have hnamed := h.named.snoc (mt (h.seen_iff id).mpr hmem)
      rwa [List.append_assoc] at hnamed

theorem Matches.foldl_meet (h : Matches g q c) (ids : List Nat) :
    Matches g (ids.foldl Search.Queue.meet q) (ids.foldl Copier.meet c) := by
  induction ids generalizing q c with
  | nil => exact h
  | cons id ids ih => exact ih (h.meet id)

theorem step?_cons (g : Graph) (names : TreeMap Nat Nat) (order waiting : List Nat) (id : Nat) :
    step? ⟨g, names, order, id :: waiting⟩ = (g.transitions? id).map fun ts =>
      (ts.map Transition.target).foldl Copier.meet ⟨g, names, order ++ [id], waiting⟩ := rfl

/-- A step finds the state that it takes, if what waits are states of the old graph. -/
theorem Matches.step (h : Matches g q c) (hlt : ∀ id ∈ q.waiting, id < g.size) :
    ∃ c', c.step? = some c' ∧ Matches g (q.step g.targets) c' := by
  obtain ⟨seen, order, waiting⟩ := q
  obtain ⟨graph, names, order', waiting'⟩ := c
  obtain ⟨horder, hwaiting, hseen, hnamed⟩ := h
  change order' = order at horder
  change waiting' = waiting at hwaiting
  subst horder hwaiting
  cases waiting' with
  | nil => exact ⟨_, rfl, rfl, rfl, hseen, hnamed⟩
  | cons id waiting =>
    have hgraph : graph = Graph.grow^[(order' ++ id :: waiting).length] g := hnamed.graph_eq
    have hid : id < graph.size := by
      rw [hgraph, Graph.size_grow_iterate]
      exact Nat.lt_add_right _ (hlt id List.mem_cons_self)
    have htargets : (graph.transitions id).map Transition.target = g.targets id := by
      rw [hgraph, Graph.transitions_grow_iterate, Graph.targets]
    have htaken : Matches g ⟨seen, order' ++ [id], waiting⟩
        ⟨graph, names, order' ++ [id], waiting⟩ :=
      ⟨rfl, rfl, by simpa using hseen, by simpa using hnamed⟩
    refine ⟨_, ?_, htaken.foldl_meet (g.targets id)⟩
    rw [step?_cons, Graph.transitions?_eq hid, Option.map_some, htargets]

/-- A copier goes as far as a queue, if what the root leads to are states. -/
theorem Matches.run (h : Matches g q c) (hfollows : q.Follows g.targets g.size root)
    (hlt : ∀ id ∈ g.reachable root, id < g.size) (rounds : Nat) :
    ∃ c', c.run? rounds = some c' ∧ Matches g ((Search.Queue.step g.targets)^[rounds] q) c' := by
  induction rounds generalizing q c with
  | zero => exact ⟨c, rfl, h⟩
  | succ rounds ih =>
    have hwaiting : ∀ id ∈ q.waiting, id < g.size := fun id hid =>
      hlt id (hfollows.listed_prefix.subset (List.mem_append_right _ hid))
    obtain ⟨next, hstep, hnext⟩ := h.step hwaiting
    obtain ⟨c', hrun, hc'⟩ :=
      ih hnext (hfollows.step fun _ => Graph.targets_of_size_le)
    refine ⟨c', ?_, hc'⟩
    rw [run?, hstep]
    exact hrun

/-- After enough rounds, all that the root leads to is named, in the order of the search. -/
theorem run?_start (hlt : ∀ id ∈ g.reachable root, id < g.size) {rounds : Nat}
    (hrounds : (g.reachable root).length ≤ rounds) :
    ∃ c, (start g root).run? rounds = some c ∧ c.order = g.reachable root ∧
      g.Named (g.reachable root) c.graph c.names := by
  obtain ⟨c, hrun, hc⟩ := (matches_start g root).run (Search.Queue.follows_start ..) hlt rounds
  obtain ⟨hdone, horder⟩ :=
    Search.Queue.iterate_step_start (fun _ => Graph.targets_of_size_le) hrounds
  refine ⟨c, hrun, hc.order_eq.trans horder, ?_⟩
  have hnamed := hc.named
  rwa [hdone, horder, List.append_nil] at hnamed

end Copier

/-! ## Steps for the copies -/

namespace Graph

variable {g graph : Graph} {names : TreeMap Nat Nat} {order : List Nat} {f : Fragment}
variable {old m : Nat}

/-- The new states for the states of a list, the first `m` of which have their steps. -/
def fillings (g : Graph) (order : List Nat) (m : Nat) : List State :=
  order.zipIdx.map fun (id, i) =>
    ⟨g.size + i, if i < m then (g.transitions id).map (.rename (g.renamed order)) else []⟩

/-- The graph while the new states get their steps. -/
def filled (g : Graph) (order : List Nat) (m : Nat) : Graph := ⟨g.states ++ g.fillings order m⟩

theorem states_filled (g : Graph) (order : List Nat) (m : Nat) :
    (g.filled order m).states.toList = g.states.toList ++ g.fillings order m :=
  Array.toList_appendList

theorem filled_length (g : Graph) (order : List Nat) :
    g.filled order order.length = g.copied order := by
  have hall : g.fillings order order.length = g.copies order := by
    refine List.map_congr_left fun (id, i) hid => ?_
    have hlt : i < order.length := by simpa using (List.mem_zipIdx hid).2.1
    simp only [if_pos hlt]
  rw [filled, hall, copied]

theorem states_grow_iterate (g : Graph) (n : Nat) :
    (grow^[n] g).states.toList =
      g.states.toList ++ (List.range n).map fun i => ⟨g.size + i, []⟩ := by
  induction n with
  | zero => simp
  | succ n ih =>
    rw [Function.iterate_succ_apply', grow, Array.toList_push, ih, size_grow_iterate,
      List.range_succ, List.map_append, List.append_assoc]
    rfl

/-- Two graphs with the same list of states are the same. -/
theorem eq_of_toList {g g' : Graph} (h : g.states.toList = g'.states.toList) : g = g' :=
  congrArg Graph.mk (Array.toList_inj.mp h)

theorem filled_zero (g : Graph) (order : List Nat) :
    g.filled order 0 = grow^[order.length] g := by
  have hnone : g.fillings order 0 = (List.range order.length).map fun i => ⟨g.size + i, []⟩ := by
    rw [List.range_eq_range', ← List.zipIdx_map_snd 0 order, List.map_map]
    rfl
  refine eq_of_toList ?_
  rw [states_filled, states_grow_iterate, hnone]

theorem size_filled (g : Graph) (order : List Nat) (m : Nat) :
    (g.filled order m).size = g.size + order.length := by
  rw [size, ← Array.length_toList, states_filled]
  simp [fillings, size]

/-- The old states are as they were. -/
theorem transitions?_filled (h : old < g.size) (order : List Nat) (m : Nat) :
    (g.filled order m).transitions? old = some (g.transitions old) := by
  have hstate : (g.filled order m).states[old]? = g.states[old]? := by
    rw [← Array.getElem?_toList, states_filled, List.getElem?_append_left h, Array.getElem?_toList]
  rw [← transitions?_eq h, transitions?, transitions?, hstate]

theorem getElem?_fillings (g : Graph) (order : List Nat) (m i : Nat) :
    (g.fillings order m)[i]? = order[i]?.map fun id =>
      ⟨g.size + i, if i < m then (g.transitions id).map (.rename (g.renamed order)) else []⟩ := by
  simp [fillings, Function.comp_def]

/-- When the next new state gets its steps, there is one more that has them. -/
theorem modify_fillings (hold : order[m]? = some old) :
    (g.fillings order m).modify m
        ({ · with transitions := (g.transitions old).map (.rename (g.renamed order)) }) =
      g.fillings order (m + 1) := by
  refine List.ext_getElem? fun i => ?_
  rw [List.getElem?_modify, getElem?_fillings, getElem?_fillings]
  by_cases hi : m = i
  · subst hi
    simp [hold]
  · have hlt : i < m + 1 ↔ i < m := by omega
    simp [hi, hlt]

theorem replace?_filled (hold : order[m]? = some old) :
    (g.filled order m).replace? (g.size + m) ((g.transitions old).map (.rename (g.renamed order))) =
      some (g.filled order (m + 1)) := by
  have hm : m < order.length := (List.getElem?_eq_some_iff.mp hold).1
  rw [replace?, if_pos (by rw [size_filled]; omega)]
  refine congrArg some (eq_of_toList ?_)
  rw [Array.toList_modify, states_filled, states_filled, ← modify_fillings hold]
  exact List.modifyTailIdx_add _ m g.states.toList _

/-- The new state of the next old one gets copies of its steps. -/
theorem fill?_filled (hnames : g.Named order graph names) (hnodup : order.Nodup)
    (hclosed : g.Closed {id | id ∈ order}) (hold : order[m]? = some old) (hlt : old < g.size) :
    Copier.fill? names (g.filled order m) old = some (g.filled order (m + 1)) := by
  have hmem : old ∈ order := List.mem_of_getElem? hold
  have hname : ∀ id ∈ order, names[id]? = some (g.renamed order id) := by
    intro id hid
    rw [hnames.names_eq, if_pos hid]
  have hplace : g.renamed order old = g.size + m := by
    obtain ⟨hm, rfl⟩ := List.getElem?_eq_some_iff.mp hold
    rw [renamed, hnodup.idxOf_getElem]
  have hcopied : (g.transitions old).filterMap (fun t => names[t.target]?.map (⟨t.label, ·⟩)) =
      (g.transitions old).map (Transition.rename (g.renamed order)) := by
    rw [← List.filterMap_eq_map]
    refine List.filterMap_congr fun t ht => ?_
    rw [hname _ (hclosed old hmem t ht)]
    rfl
  rw [Copier.fill?, transitions?_filled hlt, Option.bind_eq_bind, Option.bind_some, hname old hmem,
    hplace]
  rw [← replace?_filled hold, ← hcopied]

/-- All new states get their steps, one after the other. -/
theorem foldlM_fill? (hnames : g.Named order graph names) (hnodup : order.Nodup)
    (hclosed : g.Closed {id | id ∈ order}) (hlt : ∀ id ∈ order, id < g.size) :
    order.foldlM (Copier.fill? names) (g.filled order 0) = some (g.copied order) := by
  suffices hrest : ∀ done rest, order = done ++ rest →
      rest.foldlM (Copier.fill? names) (g.filled order done.length) =
        some (g.filled order order.length) by
    rw [← filled_length]
    exact hrest [] order rfl
  intro done rest horder
  induction rest generalizing done with
  | nil => rw [horder, List.append_nil]; rfl
  | cons old rest ih =>
    have hold : order[done.length]? = some old := by simp [horder]
    have hfill := fill?_filled hnames hnodup hclosed hold (hlt old (List.mem_of_getElem? hold))
    have hnext := ih (done ++ [old]) (by simp [horder])
    rw [List.length_append, List.length_singleton] at hnext
    rw [List.foldlM_cons, hfill]
    exact hnext

/-- A copy that checks its accesses comes out as one that does not, if the fragment leads to
states. -/
theorem copy?_eq (hlt : ∀ id ∈ g.reachable f.start, id < g.size) {rounds : Nat}
    (hrounds : (g.reachable f.start).length ≤ rounds) : g.copy? rounds f = some (g.copy f) := by
  obtain ⟨c, hrun, horder, hnamed⟩ := Copier.run?_start hlt hrounds
  have hgraph : c.graph = g.filled (g.reachable f.start) 0 := by rw [hnamed.graph_eq, filled_zero]
  have hfill := foldlM_fill? hnamed (nodup_reachable g f.start) (closed_reachable g f.start) hlt
  have hname := hnamed.names_eq f.accept
  rw [copy?, hrun, Option.bind_eq_bind, Option.bind_some, horder, hgraph, hfill]
  by_cases haccept : f.accept ∈ g.reachable f.start
  · rw [if_pos haccept] at hname
    simp [hname, copy_eq haccept]
  · rw [if_neg haccept] at hname
    simp [hname, copy_eq_none haccept]

/-- At least one pass that checks its accesses comes out as without the checks, if the
fragment leads to states. -/
theorem plus?_eq (hlt : ∀ id ∈ g.reachable f.start, id < g.size) {rounds : Nat}
    (hrounds : (g.reachable f.start).length ≤ rounds) : g.plus? rounds f = some (g.plus f) := by
  rw [plus?, copy?_eq hlt hrounds, Option.bind_eq_bind, Option.bind_some]
  by_cases haccept : f.accept ∈ g.reachable f.start
  · -- The copy of the accept is a new state, and the accept is an old one.
    let second : Fragment := ⟨g.size, g.renamed (g.reachable f.start) f.accept⟩
    have hsecond : second.accept < (g.copied (g.reachable f.start)).size := by
      rw [size_copied]
      exact Nat.add_lt_add_left (List.idxOf_lt_length_of_mem haccept) _
    have hinner : f.accept < ((g.copied (g.reachable f.start)).star second).1.size := by
      have hold := hlt _ haccept
      rw [size_star, size_copied]
      omega
    simp [plus, copy_eq haccept, star?_eq hsecond, concat?_eq hinner, second]
  · rw [plus, copy_eq_none haccept]
    rfl

end Graph

end PatternAutomata
