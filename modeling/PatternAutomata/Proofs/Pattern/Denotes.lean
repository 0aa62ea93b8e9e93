import PatternAutomata.Pattern.Language

/-!
# Every pattern stands for a language

`Denotes` has a side condition that `Pattern` lacks, and yet every pattern denotes
(`exists_denotes`).  Where the grammar cuts a run in two, the letter behind the cut
can be moved into the run (`Denotes.extend`), together with the signs that are
applied to the letter (`Denotes.append_factor`).

What a pattern denotes depends on the meaning of the runs.  Two meanings that agree
on words of single characters give languages that agree on such words
(`Denotes.exists_agreeing`).
-/

namespace PatternAutomata

/-! ## Both ends of a text -/

section Ends

variable {p q : List Char} {c : Char}

theorem not_endsInEscape_nil : ¬EndsInEscape [] := by
  rintro ⟨before, run, heq, -⟩
  simp at heq

theorem endsInEscape_append_singleton :
    EndsInEscape (p ++ [c]) ↔ c = '\\' ∨ c.isAlphanum = true ∧ EndsInEscape p := by
  constructor
  · rintro ⟨before, run, heq, hrun⟩
    induction run using List.reverseRecOn with
    | nil => exact .inl (List.singleton_inj.mp (List.append_inj' heq rfl).2)
    | append_singleton run d _ =>
      rw [← List.cons_append, ← List.append_assoc] at heq
      obtain ⟨hp, hc⟩ := List.append_inj' heq rfl
      rw [List.singleton_inj.mp hc]
      refine .inr ⟨hrun d (by simp), before, run, hp, fun d' hd' => hrun d' (by simp [hd'])⟩
  · rintro (rfl | ⟨hc, before, run, rfl, hrun⟩)
    · exact ⟨p, [], rfl, nofun⟩
    · refine ⟨before, run ++ [c], by simp, fun d hd => ?_⟩
      rcases List.mem_append.mp hd with hd | hd
      · exact hrun d hd
      · rwa [List.mem_singleton.mp hd]

theorem endsInEscape_append : EndsInEscape (p ++ q) ↔
    EndsInEscape q ∨ EndsInEscape p ∧ ∀ c ∈ q, c.isAlphanum = true := by
  induction q using List.reverseRecOn with
  | nil => simp [not_endsInEscape_nil]
  | append_singleton q c ih =>
    rw [← List.append_assoc, endsInEscape_append_singleton, endsInEscape_append_singleton, ih]
    simp only [List.forall_mem_append, List.forall_mem_singleton]
    tauto

theorem startsAlphanum_append (h : p ≠ []) : StartsAlphanum (p ++ q) ↔ StartsAlphanum p := by
  obtain ⟨c, cs, rfl⟩ := List.exists_cons_of_ne_nil h
  simp [StartsAlphanum]

theorem startsAlphanum_of_forall (h : p ≠ []) (halnum : ∀ c ∈ p, c.isAlphanum = true) :
    StartsAlphanum p := by
  obtain ⟨c, cs, rfl⟩ := List.exists_cons_of_ne_nil h
  exact ⟨c, cs, rfl, halnum c List.mem_cons_self⟩

end Ends

namespace Denotes

variable {escape : List Char → Language String} {rank : Rank} {p q : List Char}
variable {L M : Language String} {c : Char}

/-- What denotes a language is a pattern. -/
theorem pattern (h : Denotes escape rank p L) : Pattern rank p := by
  induction h with
  | letter h => exact .letter h
  | escaped h => exact .escape h
  | group _ ih => exact .group ih
  | ofUnit _ ih => exact .ofUnit ih
  | star _ ih => exact .star ih
  | plus _ ih => exact .plus ih
  | question _ ih => exact .question ih
  | ofFactor _ ih => exact .ofFactor ih
  | juxtapose _ _ _ ihl ihu => exact .juxtapose ihl ihu
  | ofSequence _ ih => exact .ofSequence ih
  | union _ _ ihl ihu => exact .union ihl ihu

/-! ## Longer runs -/

/-- A run at the end can be one character longer. -/
theorem extend (h : Denotes escape rank p L) (hends : EndsInEscape p) (hc : c.isAlphanum = true) :
    ∃ N, Denotes escape rank (p ++ [c]) N := by
  induction h with
  | @letter d hd =>
    rcases endsInEscape_append_singleton (p := []).mp hends with rfl | ⟨-, hnil⟩
    · cases hd
    · exact absurd hnil not_endsInEscape_nil
  | @escaped d run hrun =>
    refine ⟨_, .escaped fun d' hd' => ?_⟩
    rw [List.append_eq, ← List.cons_append] at hd'
    rcases List.mem_append.mp hd' with hd' | hd'
    · exact hrun d' hd'
    · rwa [List.mem_singleton.mp hd']
  | @group p L =>
    rcases endsInEscape_append_singleton (p := '(' :: p).mp hends with heq | ⟨heq, -⟩ <;> cases heq
  | star | plus | question =>
    rcases endsInEscape_append_singleton.mp hends with heq | ⟨heq, -⟩ <;> cases heq
  | ofUnit _ ih => exact (ih hends).imp fun _ => .ofUnit
  | ofFactor _ ih => exact (ih hends).imp fun _ => .ofFactor
  | ofSequence _ ih => exact (ih hends).imp fun _ => .ofSequence
  | juxtapose lower upper apart _ ih =>
    have hne := upper.pattern.ne_nil
    rw [List.append_assoc]
    -- A run that begins in the lower part would make all of the upper part a part of it.
    rcases endsInEscape_append.mp hends with hends | ⟨hends, halnum⟩
    · obtain ⟨N, hN⟩ := ih hends
      refine ⟨_, .juxtapose lower hN fun hp => ?_⟩
      rw [startsAlphanum_append hne]
      exact apart hp
    · exact absurd (startsAlphanum_of_forall hne halnum) (apart hends)
  | union lower upper _ ih =>
    rw [List.append_assoc, List.cons_append]
    rcases endsInEscape_append.mp hends with hends | ⟨-, halnum⟩
    · rw [← List.singleton_append] at hends
      rcases endsInEscape_append.mp hends with hends | ⟨hbar, -⟩
      · obtain ⟨N, hN⟩ := ih hends
        exact ⟨_, .union lower hN⟩
      · rcases endsInEscape_append_singleton (p := []).mp hbar with heq | ⟨heq, -⟩ <;> cases heq
    · cases halnum _ List.mem_cons_self

/-- A sign is applied to the last factor of a sequence. -/
theorem applied (h : Denotes escape .sequence p L) (hc : c = '*' ∨ c = '+' ∨ c = '?') :
    ∃ N, Denotes escape .sequence (p ++ [c]) N := by
  have hfactor : ∀ {q M}, Denotes escape .factor q M →
      ∃ N, Denotes escape .factor (q ++ [c]) N := by
    rintro q M hq
    rcases hc with rfl | rfl | rfl
    · exact ⟨_, .star hq⟩
    · exact ⟨_, .plus hq⟩
    · exact ⟨_, .question hq⟩
  cases h with
  | ofFactor inner => exact (hfactor inner).imp fun _ => .ofFactor
  | juxtapose lower upper apart =>
    obtain ⟨N, hN⟩ := hfactor upper
    rw [List.append_assoc]
    refine ⟨_, .juxtapose lower hN fun hends => ?_⟩
    rw [startsAlphanum_append upper.pattern.ne_nil]
    exact apart hends

/-- A factor that starts with a letter can follow an escape.  The letter becomes a
part of the run. -/
theorem append_factor (h : Denotes escape .sequence p L) (hends : EndsInEscape p)
    (hq : Denotes escape rank q M) (hrank : rank = .unit ∨ rank = .factor)
    (hstarts : StartsAlphanum q) : ∃ N, Denotes escape .sequence (p ++ q) N := by
  induction hq with
  | letter hc => exact h.extend hends hc
  | escaped | group =>
    obtain ⟨c, cs, heq, hc⟩ := hstarts
    injection heq with heq
    rw [← heq] at hc
    cases hc
  | ofUnit _ ih => exact ih (.inl rfl) hstarts
  | star inner ih | plus inner ih | question inner ih =>
    rw [startsAlphanum_append inner.pattern.ne_nil] at hstarts
    obtain ⟨N, hN⟩ := ih (.inr rfl) hstarts
    rw [← List.append_assoc]
    exact hN.applied (by simp)
  | ofFactor | juxtapose | ofSequence | union => simp at hrank

end Denotes

/-- Every pattern denotes. -/
theorem exists_denotes (escape : List Char → Language String) {rank : Rank} {p : List Char}
    (h : Pattern rank p) : ∃ L, Denotes escape rank p L := by
  induction h with
  | letter h => exact ⟨_, .letter h⟩
  | escape h => exact ⟨_, .escaped h⟩
  | group _ ih => exact ih.imp fun _ => .group
  | ofUnit _ ih => exact ih.imp fun _ => .ofUnit
  | star _ ih => exact ih.elim fun _ hL => ⟨_, .star hL⟩
  | plus _ ih => exact ih.elim fun _ hL => ⟨_, .plus hL⟩
  | question _ ih => exact ih.elim fun _ hL => ⟨_, .question hL⟩
  | ofFactor _ ih => exact ih.imp fun _ => .ofFactor
  | @juxtapose p q _ _ ihl ihu =>
    obtain ⟨L, hL⟩ := ihl
    obtain ⟨M, hM⟩ := ihu
    by_cases hmerge : EndsInEscape p ∧ StartsAlphanum q
    · exact hL.append_factor hmerge.1 hM (.inr rfl) hmerge.2
    · exact ⟨_, .juxtapose hL hM fun hends hstarts => hmerge ⟨hends, hstarts⟩⟩
  | ofSequence _ ih => exact ih.imp fun _ => .ofSequence
  | union _ _ ihl ihu =>
    obtain ⟨L, hL⟩ := ihl
    obtain ⟨M, hM⟩ := ihu
    exact ⟨_, .union hL hM⟩

/-! ## Words of single characters -/

/-- Every label of the word is a single character. -/
def OneByOne (w : List String) : Prop := ∀ label ∈ w, label.length = 1

/-- The languages hold the same words of single characters. -/
def AgreeOneByOne (L M : Language String) : Prop := ∀ w, OneByOne w → (w ∈ L ↔ w ∈ M)

namespace AgreeOneByOne

variable {L L' M M' : Language String}

theorem symm (h : AgreeOneByOne L M) : AgreeOneByOne M L := fun w hw => (h w hw).symm

theorem add (hl : AgreeOneByOne L L') (hm : AgreeOneByOne M M') :
    AgreeOneByOne (L + M) (L' + M') := fun w hw => or_congr (hl w hw) (hm w hw)

theorem mul (hl : AgreeOneByOne L L') (hm : AgreeOneByOne M M') :
    AgreeOneByOne (L * M) (L' * M') := by
  have hsub : ∀ {L L' M M' : Language String}, AgreeOneByOne L L' → AgreeOneByOne M M' →
      ∀ w, OneByOne w → w ∈ L * M → w ∈ L' * M' := by
    intro L L' M M' hl hm w hw hmem
    obtain ⟨u, hu, v, hv, rfl⟩ := Language.mem_mul.mp hmem
    obtain ⟨hw, hw'⟩ := List.forall_mem_append.mp hw
    exact Language.append_mem_mul ((hl u hw).mp hu) ((hm v hw').mp hv)
  exact fun w hw => ⟨hsub hl hm w hw, hsub hl.symm hm.symm w hw⟩

theorem kstar (h : AgreeOneByOne L M) : AgreeOneByOne (KStar.kstar L) (KStar.kstar M) := by
  have hsub : ∀ {L M : Language String}, AgreeOneByOne L M →
      ∀ w, OneByOne w → w ∈ KStar.kstar L → w ∈ KStar.kstar M := by
    intro L M h w hw hmem
    obtain ⟨vs, rfl, hvs⟩ := Language.mem_kstar.mp hmem
    refine Language.mem_kstar.mpr ⟨vs, rfl, fun v hv => (h v fun label hlabel => ?_).mp (hvs v hv)⟩
    exact hw label (List.mem_flatten.mpr ⟨v, hv, hlabel⟩)
  exact fun w hw => ⟨hsub h w hw, hsub h.symm w hw⟩

end AgreeOneByOne

/-- Where two meanings of runs agree on words of single characters, the languages
of a pattern do. -/
theorem Denotes.exists_agreeing {m n : List Char → Language String} {rank : Rank} {p : List Char}
    {L : Language String} (hmeanings : ∀ c run, AgreeOneByOne (m (c :: run)) (n (c :: run)))
    (h : Denotes m rank p L) : ∃ M, Denotes n rank p M ∧ AgreeOneByOne L M := by
  induction h with
  | letter h => exact ⟨_, .letter h, fun _ _ => Iff.rfl⟩
  | escaped h => exact ⟨_, .escaped h, hmeanings _ _⟩
  | group _ ih => exact ih.imp fun _ hM => ⟨.group hM.1, hM.2⟩
  | ofUnit _ ih => exact ih.imp fun _ hM => ⟨.ofUnit hM.1, hM.2⟩
  | star _ ih => exact ih.elim fun _ hM => ⟨_, .star hM.1, hM.2.kstar⟩
  | plus _ ih => exact ih.elim fun _ hM => ⟨_, .plus hM.1, hM.2.mul hM.2.kstar⟩
  | question _ ih => exact ih.elim fun _ hM => ⟨_, .question hM.1, hM.2.add fun _ _ => Iff.rfl⟩
  | ofFactor _ ih => exact ih.imp fun _ hM => ⟨.ofFactor hM.1, hM.2⟩
  | juxtapose _ _ apart ihl ihu =>
    obtain ⟨L', hL, hl⟩ := ihl
    obtain ⟨M', hM, hm⟩ := ihu
    exact ⟨_, .juxtapose hL hM apart, hl.mul hm⟩
  | ofSequence _ ih => exact ih.imp fun _ hM => ⟨.ofSequence hM.1, hM.2⟩
  | union _ _ ihl ihu =>
    obtain ⟨L', hL, hl⟩ := ihl
    obtain ⟨M', hM, hm⟩ := ihu
    exact ⟨_, .union hL hM, hl.add hm⟩

/-- No word of single characters holds the label of an escape. -/
theorem agreeOneByOne_escapeLabel (c : Char) (run : List Char) :
    AgreeOneByOne (escapeLabel (c :: run)) 0 := by
  intro w hw
  constructor
  · rintro rfl
    have hlength := hw _ List.mem_cons_self
    rw [String.length_ofList, List.length_cons, List.length_cons] at hlength
    omega
  · exact fun hmem => absurd hmem (Language.notMem_zero w)

end PatternAutomata
