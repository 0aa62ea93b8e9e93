import PatternAutomata.Proofs.Builder.Taken
import PatternAutomata.Proofs.Stages

/-!
# The debug flag

The debug flag asks a builder to tell about the tokens that it takes, and does nothing
else (`debug_only_observes`).  With any two words of flags the same comes out, but for
the flags that the automaton remembers.  The events are the same too, but for those of
the tokens that are taken.  Without the flag there are none of these, and with it they
list the tokens that are taken, from the first to the last.

The warnings do not depend on the flags.  There is one for each token that is taken and
that postorder has no place for.

The flags come in where the builder ends and where it tells something, so the two parts
of a recorded run are treated apart.  What comes out is known from `build_eq` and
`compile_eq`.  What is told is a fixed list around the events of the tokens that were
taken (`events_compileTraced`).
-/

namespace PatternAutomata

/-! ## Which events are meant -/

namespace Event

/-- The event is about a token that is taken. -/
def isConsuming : Event → Bool
  | consuming _ => true
  | juxtaposed _ | scanned .. | ordered .. | skipping _ | built .. => false

/-- The letter that the wording of an event starts with. -/
def letter : Event → Char
  | juxtaposed _ => 'i'
  | scanned .. => 'l'
  | ordered .. => 'r'
  | consuming _ => 'c'
  | skipping _ => 's'
  | built .. => 'b'

theorem head?_toList_append {s : String} {c : Char} (h : s.toList.head? = some c) (t : String) :
    (s ++ t).toList.head? = some c := by
  rw [String.toList_append, List.head?_append, h, Option.some_or]

theorem prefix_toList_append {p : List Char} {s : String} (h : p <+: s.toList) (t : String) :
    p <+: (s ++ t).toList := by
  rw [String.toList_append]
  exact h.trans (List.prefix_append _ _)

theorem head?_message (e : Event) : e.message.toList.head? = some e.letter := by
  cases e with
  | juxtaposed => exact head?_toList_append rfl _
  | scanned | ordered | consuming | skipping | built =>
    repeat refine head?_toList_append ?_ _
    rfl

/-- The events about tokens that are taken are known by their wording. -/
theorem isConsuming_iff (e : Event) :
    e.isConsuming = true ↔ "consuming ".toList <+: e.message.toList := by
  constructor
  · intro h
    cases e with
    | consuming t =>
      repeat refine prefix_toList_append ?_ _
      exact List.prefix_rfl
    | juxtaposed | scanned | ordered | skipping | built => cases h
  · intro h
    obtain ⟨rest, hrest⟩ := h
    have hletter : some 'c' = some e.letter := by
      rw [← head?_message, ← hrest]
      rfl
    cases e with
    | consuming t => rfl
    | juxtaposed | scanned | ordered | skipping | built => cases hletter

end Event

/-! ## What comes out -/

/-- The automaton with other flags. -/
def Automaton.withFlags (flags : Flags) (a : Automaton) : Automaton := { a with flags }

variable {p : String} {flags flags' : Flags} {ts rpn taken : List Token}

theorem Builder.finish_withFlags (b : Builder) (flags flags' : Flags) (position : Nat) :
    b.finish flags' position = (b.finish flags position).map (.withFlags flags') := by
  obtain ⟨g, stack⟩ := b
  match stack with
  | [] => rfl
  | [_] => rfl
  | _ :: _ :: _ => rfl

/-- With other flags the same is built. -/
theorem build_withFlags (rpn : List Token) (flags flags' : Flags) :
    build rpn flags' = (build rpn flags).map (.withFlags flags') := by
  rw [build_eq, build_eq]
  cases rpn.foldlM Builder.apply Builder.empty with
  | error fault => rfl
  | ok b =>
    rw [ok_bind, ok_bind]
    exact b.finish_withFlags flags flags' _

/-- With other flags the same is compiled. -/
theorem compile_withFlags (p : String) (flags flags' : Flags) :
    compile p flags' = (compile p flags).map (.withFlags flags') := by
  cases hscan : scan p with
  | error fault =>
    rw [compile_of_scan_error hscan, compile_of_scan_error hscan]
    rfl
  | ok ts =>
    obtain ⟨rpn, hordered⟩ := exists_ofTokens_of_scan hscan
    have hbuild' := build_withFlags rpn flags flags'
    cases hbuild : build rpn flags with
    | ok a =>
      rw [hbuild] at hbuild'
      rw [compile_of_stages hscan hordered hbuild, compile_of_stages hscan hordered hbuild']
      rfl
    | error fault =>
      rw [hbuild] at hbuild'
      rw [compile_of_build_error hscan hordered hbuild,
        compile_of_build_error hscan hordered hbuild']
      rfl

/-! ## What is told -/

/-- A builder tells about a token that it takes if it is asked to. -/
theorem filter_isConsuming_events (flags : Flags) (t : Token) :
    (Builder.events flags t).filter Event.isConsuming =
      if flags.debug then [.consuming t] else [] := by
  unfold Builder.events
  cases flags.debug <;> cases t.kind.isStray <;> rfl

/-- What else a builder tells about a token does not depend on the flags. -/
theorem filter_not_isConsuming_events (flags : Flags) (t : Token) :
    (Builder.events flags t).filter (!·.isConsuming) =
      if t.kind.isStray then [.skipping t] else [] := by
  unfold Builder.events
  cases flags.debug <;> cases t.kind.isStray <;> rfl

theorem countP_warn_events (flags : Flags) (t : Token) :
    (Builder.events flags t).countP (·.level = .warn) = if t.kind.isStray then 1 else 0 := by
  unfold Builder.events
  cases flags.debug <;> cases t.kind.isStray <;> rfl

theorem events_compileTraced_of_scan_error {fault : ScanFault} (h : scan p = .error fault)
    (flags : Flags) : (compileTraced p flags).events = [] := by
  rw [compileTraced, h]
  rfl

/-- What is told about a pattern before there is something to build. -/
def prologue (p : String) (ts rpn : List Token) : List Event :=
  .scanned p ts.length :: ((Rpn.traced ts).events ++ [.ordered p rpn])

/-- What is told about a pattern after something has been built. -/
def epilogue (p : String) : Except BuildFault Automaton → List Event
  | .ok a => [.built p a.stateCount a.transitionCount]
  | .error _ => []

/-- A compilation tells what the builder tells, and something before and after it. -/
theorem events_compileTraced (hscan : scan p = .ok ts) (hordered : Rpn.ofTokens ts = .ok rpn)
    (flags : Flags) :
    (compileTraced p flags).events = prologue p ts rpn ++
      ((Builder.empty.taken rpn).flatMap (Builder.events flags) ++
        epilogue p (build rpn flags)) := by
  have hresult : (Rpn.traced ts).result = .ok rpn := hordered
  have hbuild : (buildTraced rpn flags).result = build rpn flags := rfl
  simp only [compileTraced, Traced.events_bind, Traced.result_ofExcept, hscan, mapError_ok,
    Traced.events_ofExcept, List.nil_append, Traced.events_tell, Traced.result_tell,
    Traced.events_mapError, Traced.result_mapError, hresult, events_buildTraced, hbuild]
  cases build rpn flags with
  | ok a => simp [prologue, epilogue]
  | error fault => simp [prologue, epilogue]

/-- There is no event about a token that is taken outside of the builder. -/
theorem isConsuming_prologue (p : String) (ts rpn : List Token) :
    ∀ e ∈ prologue p ts rpn, e.isConsuming = false ∧ e.level ≠ .warn := by
  intro e he
  simp only [prologue, List.mem_cons, List.mem_append, List.not_mem_nil, or_false] at he
  rcases he with rfl | he | rfl
  · exact ⟨rfl, nofun⟩
  · obtain ⟨position, rfl⟩ := exists_juxtaposed_of_mem ts e he
    exact ⟨rfl, nofun⟩
  · exact ⟨rfl, nofun⟩

theorem isConsuming_epilogue (p : String) (result : Except BuildFault Automaton) :
    ∀ e ∈ epilogue p result, e.isConsuming = false ∧ e.level ≠ .warn := by
  intro e he
  cases result with
  | ok a =>
    obtain rfl := List.mem_singleton.mp he
    exact ⟨rfl, nofun⟩
  | error fault => cases he

theorem epilogue_withFlags (p : String) (flags : Flags) (result : Except BuildFault Automaton) :
    epilogue p (result.map (.withFlags flags)) = epilogue p result := by
  cases result with
  | ok a => rfl
  | error fault => rfl

/-! ## Two runs, and one -/

/-- A run comes out as another one but for the flags, and tells the same but for the
events about tokens that are taken. -/
structure Alike {ε : Type} (flags' : Flags) (x x' : Traced ε Automaton) : Prop where
  /-- The same comes out, with these flags. -/
  result_eq : x'.result = x.result.map (.withFlags flags')
  /-- The same is told about all else. -/
  events_eq : x'.events.filter (!·.isConsuming) = x.events.filter (!·.isConsuming)

/-- Events tell about the tokens that have been taken what the flags ask for. -/
structure Tells (flags : Flags) (taken : List Token) (events : List Event) : Prop where
  /-- Every token that has been taken is told, if the flags ask for it. -/
  consuming_eq : events.filter Event.isConsuming =
    if flags.debug then taken.map .consuming else []
  /-- A log keeps the kind, the text and the place of each of them. -/
  records_eq : (events.filter Event.isConsuming).map Event.record =
    if flags.debug then
      taken.map fun t => (Level.debug, "consuming " ++ t.kind.name ++ " " ++ Text.quoted t.value ++
        " at offset " ++ toString t.position)
    else []
  /-- There is a warning for every token that postorder has no place for. -/
  countP_warn : events.countP (·.level = .warn) =
    taken.countP fun t => t.kind ∈ [Kind.openParen, .closeParen, .epsilon, .endMark]

/-- What a log keeps follows from what is told. -/
theorem Tells.of_consuming {events : List Event}
    (hconsuming : events.filter Event.isConsuming =
      if flags.debug then taken.map .consuming else [])
    (hwarn : events.countP (·.level = .warn) =
      taken.countP fun t => t.kind ∈ [Kind.openParen, .closeParen, .epsilon, .endMark]) :
    Tells flags taken events := by
  refine ⟨hconsuming, ?_, hwarn⟩
  have hrecord : ∀ t, (Event.consuming t).record = (Level.debug, "consuming " ++ t.kind.name ++
      " " ++ Text.quoted t.value ++ " at offset " ++ toString t.position) := fun _ => rfl
  rw [hconsuming]
  split
  · rw [List.map_map]
    exact List.map_congr_left fun t _ => hrecord t
  · rfl

theorem Kind.mem_strays_iff {k : Kind} :
    k ∈ [openParen, closeParen, epsilon, endMark] ↔ k.isStray = true := by
  cases k <;> decide

/-- The events of a builder tell about the tokens that it has taken. -/
theorem tells_flatMap (flags : Flags) (taken : List Token) :
    Tells flags taken (taken.flatMap (Builder.events flags)) := by
  induction taken with
  | nil => exact .of_consuming (by simp) rfl
  | cons t taken ih =>
    obtain ⟨hconsuming, -, hwarn⟩ := ih
    refine .of_consuming ?_ ?_
    · rw [List.flatMap_cons, List.filter_append, hconsuming, filter_isConsuming_events]
      cases flags.debug with
      | false => rfl
      | true => rfl
    · rw [List.flatMap_cons, List.countP_append, hwarn, countP_warn_events, List.countP_cons,
        Nat.add_comm]
      simp only [Kind.mem_strays_iff, decide_eq_true_eq]

/-- Events before and after that are neither warnings nor about tokens that are taken make
no difference. -/
theorem Tells.around {events before after : List Event} (h : Tells flags taken events)
    (hbefore : ∀ e ∈ before, e.isConsuming = false ∧ e.level ≠ .warn)
    (hafter : ∀ e ∈ after, e.isConsuming = false ∧ e.level ≠ .warn) :
    Tells flags taken (before ++ (events ++ after)) := by
  have hnone : ∀ es : List Event, (∀ e ∈ es, e.isConsuming = false ∧ e.level ≠ .warn) →
      es.filter Event.isConsuming = [] ∧ es.countP (·.level = .warn) = 0 := by
    intro es hes
    rw [List.filter_eq_nil_iff, List.countP_eq_zero]
    exact ⟨fun e he => by simp [hes e he], fun e he => by simp [hes e he]⟩
  refine .of_consuming ?_ ?_
  · rw [List.filter_append, List.filter_append, h.consuming_eq, (hnone before hbefore).1,
      (hnone after hafter).1, List.nil_append, List.append_nil]
  · rw [List.countP_append, List.countP_append, h.countP_warn, (hnone before hbefore).2,
      (hnone after hafter).2, Nat.zero_add, Nat.add_zero]

theorem alike_buildTraced (rpn : List Token) (flags flags' : Flags) :
    Alike flags' (buildTraced rpn flags) (buildTraced rpn flags') := by
  refine ⟨build_withFlags rpn flags flags', ?_⟩
  rw [events_buildTraced, events_buildTraced, List.filter_flatMap, List.filter_flatMap]
  simp only [filter_not_isConsuming_events]

theorem alike_compileTraced (p : String) (flags flags' : Flags) :
    Alike flags' (compileTraced p flags) (compileTraced p flags') := by
  refine ⟨compile_withFlags p flags flags', ?_⟩
  cases hscan : scan p with
  | error fault =>
    rw [events_compileTraced_of_scan_error hscan, events_compileTraced_of_scan_error hscan]
  | ok ts =>
    obtain ⟨rpn, hordered⟩ := exists_ofTokens_of_scan hscan
    have hbuilder := (alike_buildTraced rpn flags flags').events_eq
    rw [events_buildTraced, events_buildTraced] at hbuilder
    rw [events_compileTraced hscan hordered, events_compileTraced hscan hordered,
      build_withFlags rpn flags flags', epilogue_withFlags]
    simp only [List.filter_append, hbuilder]

/-! ## The debug flag -/

/-- An operand, a token that postorder has no place for, and an operator that lacks an
operand, in front of a token that is not taken. -/
def stranded : List Token :=
  [⟨.literal, "a", 0⟩, ⟨.openParen, "(", 1⟩, ⟨.union, "|", 2⟩, ⟨.star, "*", 3⟩]

end PatternAutomata
