import Mathlib.Computability.Language
import PatternAutomata.Graph.Walk
import PatternAutomata.Proofs.Graph.Search

/-!
# Walks and the words they spell

`Graph.words g a b` is the language of all words that walks from `a` to `b`
spell.  Adding steps keeps walks (`Walk.mono`).  Walks inside a set of states that
no step leaves depend on the steps of these states only (`Walk.frame`).

`Walk.mem_words_mul` is about a larger graph that leads out of such a set.  If the
only new way out is through the accept, then every walk out spells a word of the
set and goes on from the accept.  The lemma allows a new way to lead back into the
set, which is what a loop does.
-/

namespace PatternAutomata

/-- What a step adds to a word. -/
def Transition.word (t : Transition) : List String := if t.isEpsilon then [] else [t.label.text]

namespace Walk

variable {g g' : Graph} {id a b c last : Nat} {v w : List String} {t : Transition}

theorem step (mem : t ∈ g.transitions id) (rest : Walk g t.target w last) :
    Walk g id (t.word ++ w) last := by
  unfold Transition.word
  cases eps : t.isEpsilon with
  | true => exact .silent mem eps rest
  | false => exact .read mem eps rest

/-- Induction on the first step, whether it reads a token or not. -/
@[elab_as_elim]
theorem stepwise {motive : ∀ (id : Nat) (word : List String), Walk g id word last → Prop}
    (here : motive last [] (.here last))
    (step : ∀ {id : Nat} {t : Transition} {word : List String} (mem : t ∈ g.transitions id)
      (rest : Walk g t.target word last), motive t.target word rest →
        motive id (t.word ++ word) (rest.step mem))
    {id : Nat} {w : List String} (walk : Walk g id w last) : motive id w walk := by
  induction walk with
  | here => exact here
  | @silent id last t word mem eps rest ih =>
    have hword : t.word ++ word = word := by rw [Transition.word, eps, if_pos rfl, List.nil_append]
    have hmotive : ∀ v, v = word → ∀ walk : Walk g id v last, motive id v walk := by
      rintro v rfl
      rw [← hword]
      exact fun _ => step mem rest (ih here step)
    exact hmotive word rfl _
  | @read id last t word mem eps rest ih =>
    have hword : t.word ++ word = t.label.text :: word := by
      rw [Transition.word, eps, if_neg Bool.false_ne_true, List.singleton_append]
    have hmotive : ∀ v, v = t.label.text :: word → ∀ walk : Walk g id v last, motive id v walk := by
      rintro v rfl
      rw [← hword]
      exact fun _ => step mem rest (ih here step)
    exact hmotive _ rfl _

/-- A graph with more steps has all walks that were there. -/
theorem mono (hsteps : ∀ id, ∀ t ∈ g.transitions id, t ∈ g'.transitions id) (walk : Walk g a w b) :
    Walk g' a w b := by
  induction walk using stepwise with
  | here => exact .here b
  | step mem _ ih => exact ih.step (hsteps _ _ mem)

/-- A walk can be cut wherever its word can. -/
theorem exists_of_append (walk : Walk g a (v ++ w) c) : ∃ b, Walk g a v b ∧ Walk g b w c := by
  generalize hword : v ++ w = word at walk
  induction walk generalizing v with
  | here =>
    obtain ⟨rfl, rfl⟩ := List.append_eq_nil_iff.mp hword
    exact ⟨_, .here _, .here _⟩
  | silent mem eps _ ih =>
    obtain ⟨b, first, second⟩ := ih hword
    exact ⟨b, .silent mem eps first, second⟩
  | @read id last t word mem eps rest ih =>
    cases v with
    | nil =>
      rw [List.nil_append] at hword
      rw [hword]
      exact ⟨id, .here id, .read mem eps rest⟩
    | cons label v =>
      injection hword with hlabel hword
      obtain ⟨b, first, second⟩ := ih hword
      rw [hlabel]
      exact ⟨b, .read mem eps first, second⟩

end Walk

namespace Graph

/-- The words that walks from `source` to `target` spell. -/
def words (g : Graph) (source target : Nat) : Language String := {w | Walk g source w target}

theorem mem_words {g : Graph} {source target : Nat} {w : List String} :
    w ∈ g.words source target ↔ Walk g source w target := Iff.rfl

/-- No step leaves the region. -/
def Closed (g : Graph) (region : Set Nat) : Prop :=
  ∀ id ∈ region, ∀ t ∈ g.transitions id, t.target ∈ region

end Graph

namespace Walk

variable {g g' : Graph} {id accept last : Nat} {w : List String} {region : Set Nat}

/-- In a closed region, the steps of the region make the walks. -/
theorem frame (hclosed : g.Closed region)
    (hagree : ∀ id ∈ region, g'.transitions id = g.transitions id) (hid : id ∈ region) :
    Walk g' id w last ↔ Walk g id w last := by
  constructor
  · intro walk
    revert hid
    induction walk using stepwise with
    | here => exact fun _ => .here last
    | @step id t word mem _ ih =>
      intro hid
      rw [hagree id hid] at mem
      exact (ih (hclosed id hid t mem)).step mem
  · intro walk
    revert hid
    induction walk using stepwise with
    | here => exact fun _ => .here last
    | @step id t word mem _ ih =>
      intro hid
      have mem' : t ∈ g'.transitions id := by rwa [hagree id hid]
      exact (ih (hclosed id hid t mem)).step mem'

/-- A walk out of a closed region goes through the accept, where the new steps
start.  `K` holds what a new step and the walk behind it can spell. -/
theorem mem_words_mul {K : Language String} (hclosed : g.Closed region) (hlast : last ∉ region)
    (hsteps : ∀ id ∈ region, ∀ t ∈ g'.transitions id, t ∈ g.transitions id ∨ id = accept ∧
      ∀ w, Walk g' t.target w last →
        (t.target ∈ region → w ∈ g.words t.target accept * K) → t.word ++ w ∈ K)
    (hid : id ∈ region) (walk : Walk g' id w last) : w ∈ g.words id accept * K := by
  revert hid
  induction walk using stepwise with
  | here => exact fun hid => absurd hid hlast
  | @step id t word mem rest ih =>
    intro hid
    rcases hsteps id hid t mem with hold | ⟨rfl, hexit⟩
    · obtain ⟨u, hu, k, hk, rfl⟩ := Language.mem_mul.mp (ih (hclosed id hid t hold))
      rw [← List.append_assoc]
      exact Language.append_mem_mul (Walk.step hold hu) hk
    · have hk : t.word ++ word ∈ K := hexit word rest ih
      exact Language.mem_mul.mpr ⟨[], .here id, _, hk, rfl⟩

/-- Steps lead along every walk. -/
theorem leads (walk : Walk g id w last) : Search.Leads g.targets id last := by
  induction walk using stepwise with
  | here => exact .refl
  | step mem _ ih => exact .head (List.mem_map_of_mem mem) ih

end Walk

end PatternAutomata
