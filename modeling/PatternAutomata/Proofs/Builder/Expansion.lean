import PatternAutomata.Proofs.Automaton.Shape
import PatternAutomata.Proofs.Builder.Follows
import PatternAutomata.Proofs.Graph.Unranked

/-!
# At least one pass, spelled out

One pass or more is one pass followed by any number of passes.  The operator gets
its second pass by copying the first one.  The tokens of the first pass, taken again
and put under the other two operators, give the same automaton up to the names of
the states (`build_plus_iff`).

A postorder that makes one fragment makes the same fragment wherever it is taken
(`Builder.exists_run_onTop`).  So the tokens taken again make a second fragment that
differs from a copy only in the order of its states, which is that of their making
and not that of a search.  `unranked` takes the one order to the other, and the two
builders keep in step whatever follows.
-/

namespace PatternAutomata

/-! ## Automata with other names for their states -/

/-- The states have new names, and all else is the same.  In particular a search from
the start finds them in the same order. -/
structure Automaton.Renames (names : Nat → Nat) (a b : Automaton) : Prop where
  /-- The names are those of the states of the other automaton, each given once. -/
  bijOn : Set.BijOn names {id | id < a.stateCount} {id | id < b.stateCount}
  /-- The start goes by its new name. -/
  start_eq : b.start = names a.start
  /-- The accept goes by its new name. -/
  accept_eq : b.accept = names a.accept
  /-- The steps out of a state are the same, in the same order. -/
  transitions_eq : ∀ id < a.stateCount,
    b.transitions (names id) = (a.transitions id).map (.rename names)
  /-- A search finds the states in the same order. -/
  reachable_eq : b.reachable = a.reachable.map names

/-- A graph inside another one makes a renaming, if the other one is all that is led to
from its start. -/
theorem Automaton.renames_of_embeds {base : Graph} {names : Nat → Nat} {a b : Automaton}
    (h : base.Embeds names id a.graph b.graph) (hb : b.WellShaped)
    (hstart : b.start = names a.start) (haccept : b.accept = names a.accept) :
    Renames names a b := by
  have hreachable : b.reachable = a.reachable.map names := by
    rw [reachable, hstart]
    exact h.reachable_eq a.start
  refine ⟨⟨h.names_lt, h.injective.injOn, fun id hid => ?_⟩, hstart, haccept, fun id _ => ?_,
    hreachable⟩
  · have hmem : id ∈ b.reachable := hb.reachable_perm.mem_iff.mpr (List.mem_range.mpr hid)
    rw [hreachable] at hmem
    obtain ⟨old, -, rfl⟩ := List.mem_map.mp hmem
    exact ⟨old, h.names_lt_iff.mp hid, rfl⟩
  · rw [← Transition.move_id]
    exact h.transitions_eq id

namespace Builder

variable {b b' whole once twice next : Builder} {x : List Token} {inner : Fragment}
variable {rest : List Fragment} {pt st ct : Token}

/-! ## The same fragment everywhere -/

theorem finish_eq_ok {flags : Flags} {position : Nat} {a : Automaton}
    (h : b.finish flags position = .ok a) :
    ∃ f, b.stack = [f] ∧ a = ⟨"", flags, f.start, f.accept, b.graph⟩ := by
  obtain ⟨g, stack⟩ := b
  match stack with
  | [] => cases h
  | [f] =>
    cases h
    exact ⟨f, rfl, rfl⟩
  | _ :: _ :: _ => cases h

/-- A postorder that makes one fragment from nothing makes it on top of every
builder. -/
theorem exists_run_onTop (hrun : x.foldlM apply empty = .ok whole) (base : Builder) :
    ∃ next, x.foldlM apply base = .ok next ∧
      Follows base (base.graph.size + ·) id whole next := by
  have hfollows := (Follows.onTop base id).foldlM sound_empty (fun _ _ => rfl) hrun
  rwa [List.map_id] at hfollows

/-! ## Copies -/

/-- The graph with a copy of a fragment, and the copy. -/
def twin (g : Graph) (f : Fragment) : Graph × Fragment :=
  (g.copied (g.reachable f.start), ⟨g.size, g.renamed (g.reachable f.start) f.accept⟩)

/-- The builder with a copy of a fragment on its stack. -/
def duplicate (b : Builder) (inner : Fragment) : Builder := push b.stack (twin b.graph inner)

theorem Sound.duplicate (h : b.Sound) (hinner : inner ∈ b.stack) : (b.duplicate inner).Sound := by
  obtain ⟨region, howns⟩ := h.exists_owns hinner
  obtain ⟨horderly, regions, hall, hpairwise, hcover⟩ := h
  refine sound_push (Graph.assembles_copied horderly howns) hall hpairwise
    (fun R _ => Set.disjoint_empty R) fun id => ?_
  rw [or_iff_right (Set.notMem_empty id)]
  exact hcover id

/-- At least one pass is a copy under the other two operators. -/
theorem run_plus (h : b.Sound) (hstack : b.stack = inner :: rest) (hplus : pt.kind = .plus)
    (hstar : st.kind = .star) (hconcat : ct.kind = .concat) :
    [pt].foldlM apply b = [st, ct].foldlM apply (b.duplicate inner) := by
  have hmem : inner ∈ b.stack := by
    rw [hstack]
    exact List.mem_cons_self
  have hcopy : b.graph.copy inner = some (twin b.graph inner) :=
    Graph.copy_eq (h.accept_mem_reachable hmem)
  obtain ⟨g, stack⟩ := b
  change stack = inner :: rest at hstack
  subst hstack
  let repeated := (twin g inner).1.star (twin g inner).2
  have hmade : apply ⟨g, inner :: rest⟩ pt =
      .ok (push rest (repeated.1.concat inner repeated.2)) := by
    unfold apply
    rw [hplus]
    change (plus pt g inner).map (push rest) = _
    rw [plus, Graph.plus, hcopy]
    rfl
  have hstarred : apply (duplicate ⟨g, inner :: rest⟩ inner) st =
      .ok (push (inner :: rest) repeated) := by
    unfold apply
    rw [hstar]
    rfl
  have hjoined : apply (push (inner :: rest) repeated) ct =
      .ok (push rest (repeated.1.concat inner repeated.2)) := by
    unfold apply
    rw [hconcat]
    rfl
  rw [List.foldlM_cons, hmade, List.foldlM_cons, hstarred, ok_bind, ok_bind, List.foldlM_cons,
    hjoined]
  rfl

/-! ## Taken again -/

/-- A builder that took the tokens of a fragment twice has the builder with a copy of the
fragment, up to the order of the states of the second pass. -/
theorem follows_duplicate (hstack : whole.stack = [inner])
    (hperm : (whole.graph.reachable inner.start).Perm (List.range whole.graph.size))
    (haccept : inner.accept < whole.graph.size)
    (honce : Follows b (b.graph.size + ·) id whole once) (hsound : once.Sound)
    (htwice : Follows once (once.graph.size + ·) id whole twice) :
    Follows .empty (unranked once.graph.size (whole.graph.reachable inner.start)) id
      (once.duplicate (inner.rename (b.graph.size + ·))) twice where
  embeds := Graph.embeds_unranked hperm honce.embeds hsound.orderly.target_lt htwice.embeds
  stack_eq := by
    have hreachable : once.graph.reachable (b.graph.size + inner.start) =
        (whole.graph.reachable inner.start).map (b.graph.size + ·) :=
      honce.embeds.reachable_eq inner.start
    have hkept : once.stack.map (.rename (unranked once.graph.size
        (whole.graph.reachable inner.start))) = once.stack := by
      refine (List.map_congr_left fun f hf => ?_).trans (List.map_id _)
      obtain ⟨hstart, haccept⟩ := hsound.lt_size.1 f hf
      rw [Fragment.rename, unranked_of_lt hstart, unranked_of_lt haccept]
      rfl
    have hstart : unranked once.graph.size (whole.graph.reachable inner.start) once.graph.size =
        once.graph.size + inner.start := by
      rw [← unranked_idxOf (Graph.root_mem_reachable (g := whole.graph)), Graph.idxOf_root,
        Nat.add_zero]
    have haccept' : inner.accept ∈ whole.graph.reachable inner.start :=
      hperm.mem_iff.mpr (List.mem_range.mpr haccept)
    have haccept_eq : unranked once.graph.size (whole.graph.reachable inner.start)
        (once.graph.renamed (once.graph.reachable (b.graph.size + inner.start))
          (b.graph.size + inner.accept)) = once.graph.size + inner.accept := by
      rw [Graph.renamed, hreachable, idxOf_map_of_injective honce.embeds.injective,
        unranked_idxOf haccept']
    have htop : (twin once.graph (inner.rename (b.graph.size + ·))).2.rename
        (unranked once.graph.size (whole.graph.reachable inner.start)) =
          inner.rename (once.graph.size + ·) := congrArg₂ Fragment.mk hstart haccept_eq
    change _ = (twin _ _).2.rename _ :: once.stack.map _ ++ []
    rw [htwice.stack_eq, hstack, htop, hkept, List.append_nil]
    rfl

end Builder

/-! ## The construction -/

variable {x : List Token} {flags flags' : Flags} {a : Automaton} {pt st ct : Token}

/-- The tokens behind a run are taken by the builder that it leads to. -/
theorem build_append {before : List Token} {b : Builder}
    (hrun : before.foldlM Builder.apply Builder.empty = .ok b) (behind : List Token) (flags : Flags) :
    build (before ++ behind) flags = behind.foldlM Builder.apply b >>= fun b =>
      b.finish flags (lastPosition (before ++ behind)) := by
  rw [build_eq, List.foldlM_append, hrun, ok_bind]

/-- What is refused in front is refused whatever stands behind. -/
theorem build_append_error {before : List Token} {fault : BuildFault}
    (hrun : before.foldlM Builder.apply Builder.empty = .error fault) (behind : List Token)
    (flags : Flags) : build (before ++ behind) flags = .error fault := by
  rw [build_eq, List.foldlM_append, hrun]
  rfl

/-- Two constructions that end with the same tokens on builders in step make automata
that differ in the names of their states only, or none of them makes any. -/
theorem renames_of_follows {names : Nat → Nat} {b b' : Builder} {rpn rpn' ts : List Token}
    {position position' : Nat} (h : Builder.Follows .empty names id b b') (hsound : b.Sound)
    (hbuild : build rpn flags = ts.foldlM Builder.apply b >>= fun b => b.finish flags position)
    (hbuild' : build rpn' flags =
      ts.foldlM Builder.apply b' >>= fun b => b.finish flags position') :
    (∃ p q, build rpn flags = .ok p ∧ build rpn' flags = .ok q ∧
        Automaton.Renames names p q) ∨
      (∃ fault, build rpn flags = .error fault) ∧ ∃ fault, build rpn' flags = .error fault := by
  have hcases := h.foldlM_cases rfl hsound fun t (_ : t ∈ ts) => rfl
  rw [List.map_id] at hcases
  rcases hcases with ⟨-, next, next', hrun, hrun', -, hfollows⟩ | ⟨t, -, hrun, hrun'⟩
  · rw [hrun, ok_bind] at hbuild
    rw [hrun', ok_bind] at hbuild'
    rcases hfollows.finish rfl flags position position' with
      ⟨f, -, hfinish, hfinish'⟩ | ⟨cause, hfinish, hfinish'⟩
    · rw [hfinish] at hbuild
      rw [hfinish'] at hbuild'
      refine .inl ⟨_, _, hbuild, hbuild', ?_⟩
      exact Automaton.renames_of_embeds hfollows.embeds (wellShaped_of_build hbuild') rfl rfl
    · exact .inr ⟨⟨_, hbuild.trans hfinish⟩, _, hbuild'.trans hfinish'⟩
  · rw [hrun] at hbuild
    rw [hrun'] at hbuild'
    exact .inr ⟨⟨_, hbuild⟩, _, hbuild'⟩

/-- The tokens in front may be refused, and then no automaton is made.  Otherwise there
are two builders in step before the last operators. -/
theorem build_plus_cases (hx : build x flags' = .ok a) (hplus : pt.kind = .plus)
    (hstar : st.kind = .star) (hconcat : ct.kind = .concat) (r₁ r₂ : List Token) (flags : Flags) :
    (∃ names p q, build (r₁ ++ x ++ [pt] ++ r₂) flags = .ok p ∧
        build (r₁ ++ x ++ x ++ [st, ct] ++ r₂) flags = .ok q ∧ Automaton.Renames names p q) ∨
      (∃ fault, build (r₁ ++ x ++ [pt] ++ r₂) flags = .error fault) ∧
        ∃ fault, build (r₁ ++ x ++ x ++ [st, ct] ++ r₂) flags = .error fault := by
  have hshape := wellShaped_of_build hx
  rw [build_eq] at hx
  obtain ⟨whole, hwhole, hfinish⟩ := bind_eq_ok_iff.mp hx
  obtain ⟨inner, hstack, rfl⟩ := Builder.finish_eq_ok hfinish
  rw [List.append_assoc _ [pt] r₂, List.append_assoc _ [st, ct] r₂]
  rcases Builder.foldlM_cases Builder.sound_empty r₁ with ⟨b, hfront, -⟩ | ⟨t, -, hfault⟩
  · obtain ⟨once, hrun, honce⟩ := Builder.exists_run_onTop hwhole b
    obtain ⟨twice, hrun', htwice⟩ := Builder.exists_run_onTop hwhole once
    have hone : (r₁ ++ x).foldlM Builder.apply .empty = .ok once := by
      rw [List.foldlM_append, hfront, ok_bind, hrun]
    have htwo : (r₁ ++ x ++ x).foldlM Builder.apply .empty = .ok twice := by
      rw [List.foldlM_append, hone, ok_bind, hrun']
    have hsound := Builder.sound_of_foldlM hone
    have hnewest : once.stack = inner.rename (b.graph.size + ·) :: b.stack := by
      rw [honce.stack_eq, hstack]
      rfl
    have hmem : inner.rename (b.graph.size + ·) ∈ once.stack := by
      rw [hnewest]
      exact List.mem_cons_self
    have hfollows := Builder.follows_duplicate hstack hshape.reachable_perm hshape.accept_lt honce
      hsound htwice
    have hbuild := build_append hone ([pt] ++ r₂) flags
    rw [List.foldlM_append, Builder.run_plus hsound hnewest hplus hstar hconcat,
      ← List.foldlM_append] at hbuild
    have hcases := renames_of_follows hfollows (hsound.duplicate hmem) hbuild
      (build_append htwo ([st, ct] ++ r₂) flags)
    exact hcases.imp_left fun ⟨p, q, h⟩ => ⟨_, p, q, h⟩
  · rw [List.append_assoc r₁, List.append_assoc (r₁ ++ x), List.append_assoc r₁]
    exact .inr ⟨⟨_, build_append_error hfault _ flags⟩, _, build_append_error hfault _ flags⟩

/-- At least one pass is made if and only if its expansion is, whatever stands in front of
it and behind it.  The automata differ in the names of their states only. -/
theorem build_plus_iff (hx : build x flags' = .ok a) (hplus : pt.kind = .plus)
    (hstar : st.kind = .star) (hconcat : ct.kind = .concat) (r₁ r₂ : List Token) (flags : Flags) :
    ((∃ p, build (r₁ ++ x ++ [pt] ++ r₂) flags = .ok p) ↔
      ∃ q, build (r₁ ++ x ++ x ++ [st, ct] ++ r₂) flags = .ok q) ∧
    ∀ p q, build (r₁ ++ x ++ [pt] ++ r₂) flags = .ok p →
      build (r₁ ++ x ++ x ++ [st, ct] ++ r₂) flags = .ok q →
        ∃ names, Automaton.Renames names p q := by
  rcases build_plus_cases hx hplus hstar hconcat r₁ r₂ flags with
    ⟨names, p, q, hp, hq, hrenames⟩ | ⟨⟨fault, hp⟩, fault', hq⟩
  · rw [hp, hq]
    refine ⟨iff_of_true ⟨p, rfl⟩ ⟨q, rfl⟩, fun p' q' hp' hq' => ?_⟩
    cases hp'
    cases hq'
    exact ⟨names, hrenames⟩
  · rw [hp, hq]
    exact ⟨iff_of_false nofun nofun, nofun⟩

/-- Any number of passes, whose states are not made in the order of a search. -/
def loop : List Token := [⟨.literal, "a", 1⟩, ⟨.star, "*", 2⟩]

theorem build_plus_iff_loop :
    (∃ a, build loop Flags.empty = .ok a) ∧
      ∃ p q names, build ([⟨.escape, "d", 0⟩] ++ loop ++ [⟨.plus, "+", 3⟩] ++
          [⟨.concat, "", 1⟩, ⟨.plus, "+", 4⟩]) Flags.empty = .ok p ∧
        build ([⟨.escape, "d", 0⟩] ++ loop ++ loop ++ [⟨.star, "*", 7⟩, ⟨.concat, "", 9⟩] ++
          [⟨.concat, "", 1⟩, ⟨.plus, "+", 4⟩]) Flags.empty = .ok q ∧ Automaton.Renames names p q := by
  obtain ⟨a, hx⟩ : ∃ a, build loop Flags.empty = .ok a := ⟨_, rfl⟩
  have hplus : (⟨.plus, "+", 3⟩ : Token).kind = .plus := rfl
  have hstar : (⟨.star, "*", 7⟩ : Token).kind = .star := rfl
  have hconcat : (⟨.concat, "", 9⟩ : Token).kind = .concat := rfl
  obtain ⟨hiff, hrenames⟩ := build_plus_iff hx hplus hstar hconcat [⟨.escape, "d", 0⟩]
    [⟨.concat, "", 1⟩, ⟨.plus, "+", 4⟩] Flags.empty
  obtain ⟨p, hp⟩ : ∃ p, build ([⟨.escape, "d", 0⟩] ++ loop ++ [⟨.plus, "+", 3⟩] ++
      [⟨.concat, "", 1⟩, ⟨.plus, "+", 4⟩]) Flags.empty = .ok p := ⟨_, rfl⟩
  obtain ⟨q, hq⟩ := hiff.mp ⟨p, hp⟩
  obtain ⟨names, h⟩ := hrenames p q hp hq
  exact ⟨⟨a, hx⟩, p, q, names, hp, hq, h⟩

end PatternAutomata
