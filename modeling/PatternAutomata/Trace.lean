import PatternAutomata.Token
import PatternAutomata.Text.Quoted

/-!
# Recorded runs

A stage tells what it does by events.  A recorded run is the list of events in
the order in which they arose, together with what came out.  The events of a run
that fails are kept.  Recorded runs form a monad: one run after the other has
the events of the first, and those of the second if the first came out well.

`result_bind`, `result_pure` and `result_foldlM` say that forgetting the events
commutes with running, so what comes out can be studied without them.
-/

namespace PatternAutomata

open Text (quoted)

/-! ## Events -/

/-- How much an event matters. -/
inductive Level where
  /-- For those who follow every step. -/
  | trace
  /-- For those who look for a mistake. -/
  | debug
  /-- For everyone, since something is odd. -/
  | warn
deriving DecidableEq

/-- Something that a stage did. -/
inductive Event where
  /-- A silent concatenation was found in front of this offset. -/
  | juxtaposed (position : Nat)
  /-- The pattern was cut into so many tokens. -/
  | scanned (pattern : String) (count : Nat)
  /-- The tokens of the pattern were put into postorder. -/
  | ordered (pattern : String) (rpn : List Token)
  /-- The builder takes a token. -/
  | consuming (token : Token)
  /-- The builder passes over a token that postorder has no place for. -/
  | skipping (token : Token)
  /-- The automaton of the pattern is finished. -/
  | built (pattern : String) (states transitions : Nat)
deriving DecidableEq

namespace Event

/-- How much the event matters. -/
def level : Event → Level
  | juxtaposed _ => .trace
  | skipping _ => .warn
  | scanned .. | ordered .. | consuming _ | built .. => .debug

/-- The wording of the event. -/
def message : Event → String
  | juxtaposed position => "implicit concatenation before offset " ++ toString position
  | scanned pattern count => "lexed " ++ quoted pattern ++ " into " ++ toString count ++ " tokens"
  | ordered pattern rpn => "rpn for " ++ quoted pattern ++ ": " ++ Token.listing rpn
  | consuming t =>
    "consuming " ++ t.kind.name ++ " " ++ quoted t.value ++ " at offset " ++ toString t.position
  | skipping t =>
    "skipping unexpected " ++ t.kind.name ++ " token at offset " ++ toString t.position
      ++ " in rpn stream"
  | built pattern states transitions =>
    "built " ++ quoted pattern ++ ": " ++ toString states ++ " states, " ++ toString transitions
      ++ " transitions"

/-- What a log keeps of the event. -/
def record (e : Event) : Level × String := (e.level, e.message)

end Event

/-! ## Recorded runs -/

/-- What a run told and what came out of it. -/
@[ext]
structure Traced (ε α : Type) where
  /-- The events in the order in which they arose. -/
  events : List Event
  /-- What came out. -/
  result : Except ε α

namespace Traced

variable {ε ε' α β σ τ : Type}

/-- A run that tells nothing. -/
def ofExcept (result : Except ε α) : Traced ε α := ⟨[], result⟩

/-- A run that only tells something. -/
def tell (events : List Event) : Traced ε Unit := ⟨events, .ok ()⟩

/-- One run after the other.  The second starts only if the first came out
well. -/
def bind (x : Traced ε α) (f : α → Traced ε β) : Traced ε β :=
  match x.result with
  | .ok a => ⟨x.events ++ (f a).events, (f a).result⟩
  | .error e => ⟨x.events, .error e⟩

instance : Monad (Traced ε) where
  pure a := ofExcept (.ok a)
  bind := bind

/-- The same run with its fault told in another type. -/
def mapError (f : ε → ε') (x : Traced ε α) : Traced ε' α := ⟨x.events, x.result.mapError f⟩

@[simp] theorem result_ofExcept (r : Except ε α) : (ofExcept r).result = r := rfl

@[simp] theorem events_ofExcept (r : Except ε α) : (ofExcept r).events = [] := rfl

@[simp] theorem result_tell (es : List Event) : (tell es : Traced ε Unit).result = .ok () := rfl

@[simp] theorem events_tell (es : List Event) : (tell es : Traced ε Unit).events = es := rfl

@[simp] theorem result_mapError (f : ε → ε') (x : Traced ε α) :
    (x.mapError f).result = x.result.mapError f := rfl

@[simp] theorem events_mapError (f : ε → ε') (x : Traced ε α) :
    (x.mapError f).events = x.events := rfl

@[simp] theorem result_pure (a : α) : (pure a : Traced ε α).result = .ok a := rfl

@[simp] theorem events_pure (a : α) : (pure a : Traced ε α).events = [] := rfl

@[simp] theorem result_bind (x : Traced ε α) (f : α → Traced ε β) :
    (x >>= f).result = x.result >>= fun a => (f a).result := by
  change (bind x f).result = _
  unfold bind
  cases x.result <;> rfl

/-- The events of the second run are there if and only if the first came out
well. -/
theorem events_bind (x : Traced ε α) (f : α → Traced ε β) :
    (x >>= f).events = x.events ++
      match x.result with
      | .ok a => (f a).events
      | .error _ => [] := by
  change (bind x f).events = _
  unfold bind
  cases x.result <;> simp

/-- What is true of the events of both runs is true of the events of both in a row. -/
theorem forall_events_bind {P : Event → Prop} {x : Traced ε α} {f : α → Traced ε β}
    (hx : ∀ e ∈ x.events, P e) (hf : ∀ a, x.result = .ok a → ∀ e ∈ (f a).events, P e) :
    ∀ e ∈ (x >>= f).events, P e := by
  intro e he
  rw [events_bind, List.mem_append] at he
  rcases he with he | he
  · exact hx e he
  · cases hresult : x.result with
    | ok a =>
      rw [hresult] at he
      exact hf a hresult e he
    | error fault =>
      rw [hresult] at he
      cases he

instance : LawfulMonad (Traced ε) := by
  refine LawfulMonad.mk' _ ?_ ?_ ?_
  · intro α x
    change bind x (fun a => pure (id a)) = x
    obtain ⟨events, result⟩ := x
    cases result <;> simp [bind]
  · intro α β a f
    change bind (ofExcept (.ok a)) f = f a
    simp [bind, ofExcept]
  · intro α β γ x f g
    change bind (bind x f) g = bind x fun a => bind (f a) g
    obtain ⟨events, result⟩ := x
    cases result with
    | error e => rfl
    | ok a =>
      simp only [bind]
      cases (f a).result <;> simp

theorem result_foldlM (f : σ → τ → Traced ε σ) (s : σ) (ts : List τ) :
    (ts.foldlM f s).result = ts.foldlM (fun s t => (f s t).result) s := by
  induction ts generalizing s with
  | nil => rfl
  | cons t ts ih => simp [ih]

/-- What is true of the events of every single run is true of the events of all. -/
theorem forall_events_foldlM {P : Event → Prop} {f : σ → τ → Traced ε σ} {ts : List τ}
    (h : ∀ t ∈ ts, ∀ s, ∀ e ∈ (f s t).events, P e) (s : σ) :
    ∀ e ∈ (ts.foldlM f s).events, P e := by
  induction ts generalizing s with
  | nil => simp
  | cons t ts ih =>
    rw [List.forall_mem_cons] at h
    rw [List.foldlM_cons]
    exact forall_events_bind (h.1 s) fun next _ => ih h.2 next

end Traced

end PatternAutomata
