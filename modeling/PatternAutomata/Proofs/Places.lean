/-!
# Places in a list

A place of a list is one of its elements, with all that stands before it and all that
stands behind it.  A property of places may look both ways.  It holds nowhere in a list
(`Nowhere`), or there is a first place where it holds (`First`), as
`nowhere_or_exists_first` says.
-/

namespace PatternAutomata

variable {α : Type} {P : List α → α → List α → Prop} {a : α} {l before behind : List α}

/-- There is no place in a list where `P` holds. -/
def Nowhere (P : List α → α → List α → Prop) (l : List α) : Prop :=
  ∀ before a behind, l = before ++ a :: behind → ¬P before a behind

/-- The first place in a list where `P` holds. -/
structure First (P : List α → α → List α → Prop) (l before : List α) (a : α)
    (behind : List α) : Prop where
  /-- It is a place in the list. -/
  eq : l = before ++ a :: behind
  /-- The property holds there. -/
  holds : P before a behind
  /-- The property holds nowhere before it. -/
  earlier : Nowhere (fun front b rest => P front b (rest ++ a :: behind)) before

theorem nowhere_nil : Nowhere P [] :=
  fun _ _ _ heq => nomatch List.append_eq_nil_iff.mp heq.symm

theorem nowhere_cons :
    Nowhere P (a :: l) ↔ ¬P [] a l ∧ Nowhere (fun front => P (a :: front)) l := by
  constructor
  · intro h
    exact ⟨h [] a l rfl, fun before b behind heq => h (a :: before) b behind (by rw [heq]; rfl)⟩
  · rintro ⟨hfirst, hrest⟩ before b behind heq
    cases before with
    | nil =>
      cases heq
      exact hfirst
    | cons c before =>
      cases heq
      exact hrest before b behind rfl

/-- What has the property wherever it stands does not stand anywhere. -/
theorem Nowhere.notMem (h : Nowhere P l) (ha : ∀ before behind, P before a behind) : a ∉ l := by
  intro hmem
  obtain ⟨before, behind, rfl⟩ := List.append_of_mem hmem
  exact h before a behind rfl (ha before behind)

/-- A property that does not look ahead holds nowhere in a longer list if it holds neither
in the shorter one nor at its end. -/
theorem nowhere_append_singleton {Q : List α → α → Prop} :
    Nowhere (fun front b _ => Q front b) (l ++ [a]) ↔
      Nowhere (fun front b _ => Q front b) l ∧ ¬Q l a := by
  constructor
  · intro h
    refine ⟨fun before b behind heq => h before b (behind ++ [a]) ?_, h l a [] rfl⟩
    rw [heq, List.append_assoc, List.cons_append]
  · rintro ⟨hl, ha⟩ before b behind heq
    rcases List.eq_nil_or_concat behind with rfl | ⟨rest, c, rfl⟩
    · obtain ⟨rfl, hlast⟩ := List.append_inj' heq rfl
      cases hlast
      exact ha
    · rw [List.concat_eq_append, ← List.cons_append, ← List.append_assoc] at heq
      exact hl before b rest (List.append_inj' heq rfl).1

/-- A property of places holds nowhere, or there is a first place where it holds. -/
theorem nowhere_or_exists_first (P : List α → α → List α → Prop) (l : List α) :
    Nowhere P l ∨ ∃ before a behind, First P l before a behind := by
  induction l generalizing P with
  | nil => exact .inl nowhere_nil
  | cons a l ih =>
    by_cases ha : P [] a l
    · exact .inr ⟨[], a, l, rfl, ha, nowhere_nil⟩
    · rcases ih fun front => P (a :: front) with hl | ⟨before, b, behind, rfl, hb, hbefore⟩
      · exact .inl (nowhere_cons.mpr ⟨ha, hl⟩)
      · exact .inr ⟨a :: before, b, behind, rfl, hb, nowhere_cons.mpr ⟨ha, hbefore⟩⟩

end PatternAutomata
