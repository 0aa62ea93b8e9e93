import PatternAutomata.Graph.Basic

/-!
# Walks

A walk goes through a graph step by step and spells a word.  A step that reads a
token adds its text to the word, and a silent step adds nothing.
-/

namespace PatternAutomata

/-- There is a walk from one state to another that spells a word. -/
inductive Walk (g : Graph) : Nat → List String → Nat → Prop where
  | here (id : Nat) : Walk g id [] id
  | silent {id last : Nat} {t : Transition} {word : List String} (mem : t ∈ g.transitions id)
      (eps : t.isEpsilon = true) (rest : Walk g t.target word last) : Walk g id word last
  | read {id last : Nat} {t : Transition} {word : List String} (mem : t ∈ g.transitions id)
      (eps : t.isEpsilon = false) (rest : Walk g t.target word last) :
      Walk g id (t.label.text :: word) last

namespace Walk

variable {g : Graph} {a b c : Nat} {v w : List String}

theorem append (first : Walk g a v b) (second : Walk g b w c) : Walk g a (v ++ w) c := by
  induction first with
  | here => exact second
  | silent mem eps _ ih => exact .silent mem eps (ih second)
  | read mem eps _ ih => exact .read mem eps (ih second)

end Walk

end PatternAutomata
