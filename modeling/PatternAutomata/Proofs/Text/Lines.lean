import Mathlib.Data.List.TakeWhile
import Std.Data.String.ToNat

/-!
# Reading a text back

The parts of a text are known from the text if they cannot run into each other.  What
stands in front of a separator is known if the separator does not occur in it
(`cut_unique`), so a text is known by its lines (`lines_unique`).  Lines come in groups
if the first line of a group looks like no other, and then the groups are known too
(`groups_unique`).
-/

namespace PatternAutomata.Text

variable {α β : Type}

/-- What stands in front of a separator is known if the separator does not occur in
it. -/
theorem cut_unique {separator : α} {x y u v : List α} (hx : separator ∉ x) (hy : separator ∉ y)
    (h : x ++ separator :: u = y ++ separator :: v) : x = y ∧ u = v := by
  induction x generalizing y with
  | nil =>
    cases y with
    | nil => exact ⟨rfl, (List.cons.inj h).2⟩
    | cons d y =>
      obtain ⟨rfl, -⟩ := List.cons.inj h
      exact absurd List.mem_cons_self hy
  | cons c x ih =>
    cases y with
    | nil =>
      obtain ⟨rfl, -⟩ := List.cons.inj h
      exact absurd List.mem_cons_self hx
    | cons d y =>
      obtain ⟨rfl, hrest⟩ := List.cons.inj h
      obtain ⟨rfl, huv⟩ := ih (mt (List.mem_cons_of_mem c) hx) (mt (List.mem_cons_of_mem c) hy) hrest
      exact ⟨rfl, huv⟩

/-- A text is known by its lines. -/
theorem lines_unique {ls ms : List String} (hls : ∀ l ∈ ls, '\n' ∉ l.toList)
    (hms : ∀ m ∈ ms, '\n' ∉ m.toList)
    (h : String.join (ls.map (· ++ "\n")) = String.join (ms.map (· ++ "\n"))) : ls = ms := by
  rw [← String.toList_inj] at h
  induction ls generalizing ms with
  | nil =>
    cases ms with
    | nil => rfl
    | cons m ms => simp at h
  | cons l ls ih =>
    cases ms with
    | nil => simp at h
    | cons m ms =>
      rw [List.forall_mem_cons] at hls hms
      have hcut : l.toList ++ '\n' :: (String.join (ls.map (· ++ "\n"))).toList =
          m.toList ++ '\n' :: (String.join (ms.map (· ++ "\n"))).toList := by
        simpa using h
      obtain ⟨hfirst, hrest⟩ := cut_unique hls.1 hms.1 hcut
      rw [String.toList_inj.mp hfirst, ih hls.2 hms.2 hrest]

/-! ## Groups -/

section Groups

variable {head : α → β} {body body' : α → List β} {isHead : β → Bool}

/-- Behind a group there is nothing or another group. -/
theorem takeWhile_groups (hhead : ∀ x, isHead (head x) = true) (xs : List α) :
    (xs.flatMap fun x => head x :: body x).takeWhile (!isHead ·) = [] := by
  cases xs with
  | nil => rfl
  | cons x xs => simp [hhead]

/-- Groups are known from all that is in them, if what stands first in a group looks like
nothing else in it. -/
theorem groups_unique (hhead : ∀ x, isHead (head x) = true) (hinj : head.Injective)
    (hbody : ∀ x, ∀ y ∈ body x, isHead y = false) (hbody' : ∀ x, ∀ y ∈ body' x, isHead y = false)
    {xs ys : List α}
    (h : (xs.flatMap fun x => head x :: body x) = ys.flatMap fun y => head y :: body' y) :
    xs = ys ∧ ∀ x ∈ xs, body x = body' x := by
  induction xs generalizing ys with
  | nil =>
    cases ys with
    | nil => exact ⟨rfl, List.forall_mem_nil _⟩
    | cons y ys => cases h
  | cons x xs ih =>
    cases ys with
    | nil => cases h
    | cons y ys =>
      rw [List.flatMap_cons, List.flatMap_cons, List.cons_append, List.cons_append,
        List.cons.injEq] at h
      obtain ⟨hfirst, hrest⟩ := h
      obtain rfl := hinj hfirst
      have hsame := congrArg (List.takeWhile (!isHead ·)) hrest
      rw [List.takeWhile_append_of_pos fun z hz => by simp [hbody x z hz],
        List.takeWhile_append_of_pos fun z hz => by simp [hbody' x z hz],
        takeWhile_groups hhead, takeWhile_groups hhead, List.append_nil, List.append_nil] at hsame
      rw [hsame] at hrest
      obtain ⟨rfl, hall⟩ := ih (List.append_cancel_left hrest)
      exact ⟨rfl, List.forall_mem_cons.mpr ⟨hsame, hall⟩⟩

end Groups

/-! ## Numbers -/

/-- A number is written with digits only. -/
theorem isDigit_of_mem_toString {n : Nat} {c : Char} (h : c ∈ (toString n).toList) :
    c.isDigit = true := by
  rw [Nat.toString_eq_repr, Nat.toList_repr] at h
  exact Nat.isDigit_of_mem_toDigits (by decide) (Nat.le_refl 10) h

theorem notMem_toString {c : Char} (h : c.isDigit = false) (n : Nat) : c ∉ (toString n).toList := by
  intro hmem
  rw [isDigit_of_mem_toString hmem] at h
  cases h

theorem toString_unique {m n : Nat} (h : (toString m).toList = (toString n).toList) : m = n :=
  Nat.repr_inj.mp (String.toList_inj.mp h)

end PatternAutomata.Text
