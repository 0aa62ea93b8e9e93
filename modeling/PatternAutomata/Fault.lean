import PatternAutomata.Text.Caret
import PatternAutomata.Text.Palette

/-!
# Faults and diagnostics

A fault is what a stage reports when it gives up: a kind that callers can branch
on, a message for people, and the byte offset that is to blame.  Every stage has
kinds of its own, so `Fault` is a family over them.

A diagnostic shows a fault under the text that it was found in.  `Fault.summary`
is the short form, which names the offset instead.
-/

namespace PatternAutomata

open Text (Palette caretColumn)

/-- What a stage reports when it gives up. -/
structure Fault (κ : Type) where
  /-- The class of the fault. -/
  kind : κ
  /-- The wording for people. -/
  message : String
  /-- The byte offset that is to blame. -/
  position : Nat
deriving DecidableEq

/-- The heading of every report of a stage. -/
def heading (palette : Palette) (stage : String) : String :=
  palette.paint .boldRed (stage ++ " error:")

/-- A message, the text it is about and the byte offset it points at. -/
structure Diagnostic where
  /-- The name of the stage that reports. -/
  stage : String
  /-- The wording for people. -/
  message : String
  /-- The text the fault was found in. -/
  input : String
  /-- The byte offset that is to blame. -/
  position : Nat

/-- The message, the input below it and a caret below the fault. -/
def Diagnostic.render (palette : Palette) (d : Diagnostic) : String :=
  heading palette d.stage ++ " " ++ d.message ++ "\n | " ++ d.input ++ "\n | "
    ++ "".pushn ' ' (caretColumn d.input d.position) ++ palette.paint .green "^"

namespace Fault

variable {κ : Type}

/-- The fault in one line. -/
def summary (palette : Palette) (stage : String) (f : Fault κ) : String :=
  heading palette stage ++ " " ++ f.message ++ " at offset " ++ toString f.position

end Fault

/-! ## Results that may be faults

What a run of several stages gives, from what its first stage gives. -/

section Results

variable {ε α β : Type}

@[simp] theorem ok_bind (a : α) (f : α → Except ε β) : (Except.ok a >>= f) = f a := rfl

@[simp] theorem error_bind (e : ε) (f : α → Except ε β) : (Except.error e >>= f) = .error e := rfl

/-- Two stages in a row come out well if and only if both do. -/
theorem bind_eq_ok_iff {x : Except ε α} {f : α → Except ε β} {b : β} :
    x >>= f = .ok b ↔ ∃ a, x = .ok a ∧ f a = .ok b := by
  cases x with
  | error e => simp
  | ok a => simp

@[simp] theorem mapError_ok {ε' : Type} (f : ε → ε') (a : α) :
    (Except.ok a).mapError f = .ok a := rfl

@[simp] theorem mapError_error {ε' : Type} (f : ε → ε') (e : ε) :
    (Except.error e : Except ε α).mapError f = .error (f e) := rfl

/-- Other names for faults change nothing about what comes out well. -/
theorem mapError_eq_ok_iff {ε' : Type} {f : ε → ε'} {x : Except ε α} {a : α} :
    x.mapError f = .ok a ↔ x = .ok a := by
  cases x with
  | error e => exact ⟨nofun, nofun⟩
  | ok b => rw [mapError_ok, Except.ok.injEq, Except.ok.injEq]

end Results

/-! ## Tests -/

example : (Diagnostic.mk "lexing" "invalid character" "ab&c" 2).render .plain =
    "lexing error: invalid character\n | ab&c\n |   ^" := by decide

end PatternAutomata
