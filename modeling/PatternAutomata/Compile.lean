import PatternAutomata.Scan
import PatternAutomata.Rpn
import PatternAutomata.Builder

/-!
# Compiling a pattern

Compiling is scanning, reordering and building in a row.  The fault of a stage
becomes a `CompileError`, which knows the pattern, so it can be shown under it.
-/

namespace PatternAutomata

open Text (Palette)

/-! ## Errors -/

/-- The fault of one of the three stages. -/
inductive StageFault where
  /-- The pattern could not be cut into tokens. -/
  | scanning (fault : ScanFault)
  /-- The tokens could not be put into postorder. -/
  | parsing (fault : ParseFault)
  /-- The postorder could not be built. -/
  | building (fault : BuildFault)
deriving DecidableEq

namespace StageFault

/-- The name of the stage in reports. -/
def stage : StageFault → String
  | scanning _ => "lexing"
  | parsing _ => "parsing"
  | building _ => "construction"

/-- The wording for people. -/
def message : StageFault → String
  | scanning f => f.message
  | parsing f => f.message
  | building f => f.message

/-- The byte offset that is to blame. -/
def position : StageFault → Nat
  | scanning f => f.position
  | parsing f => f.position
  | building f => f.position

/-- The fault shown under the text it was found in. -/
def render (palette : Palette) (input : String) (f : StageFault) : String :=
  (Diagnostic.mk f.stage f.message input f.position).render palette

/-- The text of the fault by itself.  A scan knows its input and shows it.  The
other stages see tokens only and name the offset. -/
def text (palette : Palette) (input : String) (f : StageFault) : String :=
  match f with
  | scanning _ => f.render palette input
  | parsing fault => fault.summary palette f.stage
  | building fault => fault.summary palette f.stage

end StageFault

/-- Why a pattern does not compile. -/
structure CompileError where
  /-- The pattern. -/
  input : String
  /-- The fault of the stage that gave up. -/
  fault : StageFault
deriving DecidableEq

namespace CompileError

/-- The wording for people. -/
def message (e : CompileError) : String := e.fault.message

/-- The byte offset in the pattern that is to blame. -/
def position (e : CompileError) : Nat := e.fault.position

/-- The fault shown under the pattern. -/
def render (palette : Palette) (e : CompileError) : String := e.fault.render palette e.input

/-- The text of the fault by itself. -/
def source (palette : Palette) (e : CompileError) : String := e.fault.text palette e.input

end CompileError

/-! ## The three stages in a row -/

/-- The automaton of a pattern, and what the stages tell. -/
def compileTraced (pattern : String) (flags : Flags) : Traced CompileError Automaton := do
  let tokens ← Traced.ofExcept ((scan pattern).mapError (CompileError.mk pattern ∘ .scanning))
  Traced.tell [.scanned pattern tokens.length]
  let rpn ← (Rpn.traced tokens).mapError (CompileError.mk pattern ∘ .parsing)
  Traced.tell [.ordered pattern rpn]
  let a ← (buildTraced rpn flags).mapError (CompileError.mk pattern ∘ .building)
  Traced.tell [.built pattern a.stateCount a.transitionCount]
  return { a with pattern }

/-- The automaton of a pattern. -/
def compile (pattern : String) (flags : Flags) : Except CompileError Automaton :=
  (compileTraced pattern flags).result

theorem compile_eq (pattern : String) (flags : Flags) :
    compile pattern flags = (do
      let tokens ← (scan pattern).mapError (CompileError.mk pattern ∘ .scanning)
      let rpn ← (Rpn.ofTokens tokens).mapError (CompileError.mk pattern ∘ .parsing)
      let a ← (build rpn flags).mapError (CompileError.mk pattern ∘ .building)
      return { a with pattern }) := by
  simp only [compile, compileTraced, Traced.result_bind, Traced.result_ofExcept,
    Traced.result_tell, Traced.result_mapError, Traced.result_pure]
  rfl

/-! ## Tests -/

example : ((compile "a(a|b)" Flags.empty).toOption.map fun a => (a.start, a.accept, a.stateCount)) =
    some (0, 7, 8) := by decide +kernel

end PatternAutomata
