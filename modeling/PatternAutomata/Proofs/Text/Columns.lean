import Mathlib.Data.Nat.SuccPred
import Mathlib.Order.Bounds.Basic
import Mathlib.Order.Interval.Set.Monotone
import PatternAutomata.Text.Caret

/-!
# Columns and offsets

A column of a text is the number of characters in front of it, and `offsetAt` is the number
of bytes in front of it.  So `offsetAt` gives the byte offset of each character, and the byte
length of the text for the column behind the last one.  Offsets grow with columns
(`strictMonoOn_offsetAt`).

The caret stops at the first character that does not start before a position.  So a column
is in front of the caret if and only if its character starts before the position
(`lt_caretColumn_iff`).  With the order of the offsets this gives the column of any position
(`caretColumn_eq`): the character that starts there, the one behind it if it is inside a
character, or the end of the text.
-/

namespace PatternAutomata.Text

variable {text : String} {column position : Nat}

/-! ## Offsets -/

theorem utf8ByteSize_ofList_cons (c : Char) (cs : List Char) :
    (String.ofList (c :: cs)).utf8ByteSize = c.utf8Size + (String.ofList cs).utf8ByteSize := by
  have hsplit : String.ofList (c :: cs) = String.singleton c ++ String.ofList cs := by
    rw [← String.toList_inj]
    simp
  rw [hsplit, String.utf8ByteSize_append, String.utf8ByteSize_singleton]

/-- The number of bytes in front of a column. -/
def offsetAt (text : String) (column : Nat) : Nat :=
  (String.ofList (text.toList.take column)).utf8ByteSize

theorem offsetAt_length (text : String) : offsetAt text text.toList.length = text.utf8ByteSize := by
  rw [offsetAt, List.take_length, String.ofList_toList]

theorem offsetAt_append (before behind : String) :
    offsetAt (before ++ behind) before.toList.length = before.utf8ByteSize := by
  rw [offsetAt, String.toList_append, List.take_left, String.ofList_toList]

theorem offsetAt_succ (h : column < text.toList.length) :
    offsetAt text (column + 1) = offsetAt text column + text.toList[column].utf8Size := by
  rw [offsetAt, offsetAt, ← List.take_append_getElem h, String.ofList_append,
    ← String.singleton_eq_ofList, String.utf8ByteSize_append, String.utf8ByteSize_singleton]

/-- Every character takes at least one byte, so no two columns have the same offset. -/
theorem strictMonoOn_offsetAt (text : String) :
    StrictMonoOn (offsetAt text) (Set.Iic text.toList.length) := by
  refine strictMonoOn_Iic_of_lt_succ fun column hcolumn => ?_
  rw [Order.succ_eq_add_one, offsetAt_succ hcolumn]
  exact Nat.lt_add_of_pos_right (Char.utf8Size_pos _)

/-! ## The column of an offset -/

/-- The induction behind `lt_caretColumn_iff`.  Once a character does not start before the
position, no later one does, so it does not matter that the count stops there. -/
theorem lt_length_takeWhile_byteOffsets (start : Nat) (cs : List Char) :
    column < ((byteOffsets start cs).takeWhile (· < position)).length ↔
      column < cs.length ∧ start + (String.ofList (cs.take column)).utf8ByteSize < position := by
  induction cs generalizing start column with
  | nil => simp [byteOffsets]
  | cons c cs ih =>
    rw [byteOffsets]
    by_cases hstart : start < position
    · rw [List.takeWhile_cons_of_pos (by simpa using hstart), List.length_cons, List.length_cons]
      cases column with
      | zero => simpa using hstart
      | succ column =>
        rw [Nat.add_lt_add_iff_right, Nat.add_lt_add_iff_right, ih, List.take_succ_cons,
          utf8ByteSize_ofList_cons, Nat.add_assoc]
    · rw [List.takeWhile_cons_of_neg (by simpa using hstart), List.length_nil]
      omega

/-- A column is in front of the caret if and only if its character starts before the
position. -/
theorem lt_caretColumn_iff :
    column < caretColumn text position ↔
      column < text.toList.length ∧ offsetAt text column < position := by
  rw [caretColumn, lt_length_takeWhile_byteOffsets, Nat.zero_add, offsetAt]

theorem caretColumn_le_iff :
    caretColumn text position ≤ column ↔
      text.toList.length ≤ column ∨ position ≤ offsetAt text column := by
  rw [← Nat.not_lt, lt_caretColumn_iff, not_and_or, Nat.not_lt, Nat.not_lt]

theorem caretColumn_le_length (text : String) (position : Nat) :
    caretColumn text position ≤ text.toList.length :=
  caretColumn_le_iff.mpr (.inl le_rfl)

/-- The caret stands in the first column whose character does not start before the position,
or behind the last character. -/
theorem isLeast_caretColumn (text : String) (position : Nat) :
    IsLeast {k | k = text.toList.length ∨ k < text.toList.length ∧ position ≤ offsetAt text k}
      (caretColumn text position) := by
  constructor
  · rcases (caretColumn_le_length text position).eq_or_lt with hlast | hlength
    · exact .inl hlast
    · exact .inr ⟨hlength, (caretColumn_le_iff.mp le_rfl).resolve_left hlength.not_ge⟩
  · rintro k (rfl | ⟨-, hoffset⟩)
    · exact caretColumn_le_length text position
    · exact caretColumn_le_iff.mpr (.inr hoffset)

/-- The caret stands behind the characters that start before the position, if the next one
does not. -/
theorem caretColumn_eq (h : column ≤ text.toList.length)
    (hbefore : ∀ k < column, offsetAt text k < position)
    (hnext : text.toList.length ≤ column ∨ position ≤ offsetAt text column) :
    caretColumn text position = column := by
  apply Nat.le_antisymm (caretColumn_le_iff.mpr hnext)
  exact le_of_forall_lt fun k hk => lt_caretColumn_iff.mpr ⟨hk.trans_le h, hbefore k hk⟩

/-- From the offset of a character the caret finds the character. -/
theorem caretColumn_offsetAt (h : column ≤ text.toList.length) :
    caretColumn text (offsetAt text column) = column :=
  caretColumn_eq h (fun _ hk => strictMonoOn_offsetAt text (hk.le.trans h) h hk) (.inr le_rfl)

/-- Behind the first byte of a character the caret goes to the next column. -/
theorem caretColumn_eq_succ (h : column < text.toList.length)
    (hfirst : offsetAt text column < position) (hlast : position ≤ offsetAt text (column + 1)) :
    caretColumn text position = column + 1 := by
  refine caretColumn_eq h (fun k hk => ?_) (.inr hlast)
  have hle : k ≤ column := Nat.le_of_lt_succ hk
  calc offsetAt text k
      ≤ offsetAt text column := (strictMonoOn_offsetAt text).monotoneOn (hle.trans h.le) h.le hle
    _ < position := hfirst

/-- Behind all characters the caret goes to the column behind the last one. -/
theorem caretColumn_of_utf8ByteSize_le (h : text.utf8ByteSize ≤ position) :
    caretColumn text position = text.toList.length := by
  refine caretColumn_eq le_rfl (fun k hk => ?_) (.inl le_rfl)
  calc offsetAt text k
      < offsetAt text text.toList.length := strictMonoOn_offsetAt text hk.le Set.self_mem_Iic hk
    _ = text.utf8ByteSize := offsetAt_length text
    _ ≤ position := h

theorem monotone_caretColumn (text : String) : Monotone (caretColumn text) := by
  intro position later hle
  refine le_of_forall_lt fun k hk => ?_
  obtain ⟨hlength, hoffset⟩ := lt_caretColumn_iff.mp hk
  exact lt_caretColumn_iff.mpr ⟨hlength, hoffset.trans_le hle⟩

/-- The column of a caret inverts the offsets of the characters.  It is the least one whose
character starts at or after the position, if there is one.  So it is the column of a
character for the offset of the character, the next column for an offset inside a character,
and the column behind the last character for an offset behind the text. -/
theorem caretColumn_inverts_offsets (text : String) :
    StrictMonoOn (offsetAt text) (Set.Iic text.toList.length) ∧
    (∀ position, IsLeast
      {k | k = text.toList.length ∨ k < text.toList.length ∧ position ≤ offsetAt text k}
      (caretColumn text position)) ∧
    (∀ k < text.toList.length, caretColumn text (offsetAt text k) = k) ∧
    (∀ k position, ∀ h : k < text.toList.length, offsetAt text k < position →
      position < offsetAt text k + text.toList[k].utf8Size →
      caretColumn text position = k + 1) ∧
    (∀ position ≥ text.utf8ByteSize, caretColumn text position = text.toList.length) ∧
    Monotone (caretColumn text) := by
  refine ⟨strictMonoOn_offsetAt text, isLeast_caretColumn text,
    fun k hk => caretColumn_offsetAt hk.le, fun k position hk hfirst hlast => ?_,
    fun position => caretColumn_of_utf8ByteSize_le, monotone_caretColumn text⟩
  rw [← offsetAt_succ hk] at hlast
  exact caretColumn_eq_succ hk hfirst hlast.le

/-- The offset of a character, an offset inside a character of four bytes, and the largest
offset that a machine word holds. -/
theorem caretColumn_inverts_offsets_wide :
    (2 < "é😀&".toList.length ∧ caretColumn "é😀&" (offsetAt "é😀&" 2) = 2) ∧
    (1 < "é😀&".toList.length ∧ offsetAt "é😀&" 1 < 4 ∧ 4 < offsetAt "é😀&" 1 + '😀'.utf8Size ∧
      caretColumn "é😀&" 4 = 2) ∧
    ("é😀&".utf8ByteSize ≤ 2 ^ 64 - 1 ∧ caretColumn "é😀&" (2 ^ 64 - 1) = 3) := by
  obtain ⟨-, -, hoffset, hinside, hbehind, -⟩ := caretColumn_inverts_offsets "é😀&"
  exact ⟨⟨by decide, hoffset 2 (by decide)⟩,
    ⟨by decide, by decide, by decide, hinside 1 4 (by decide) (by decide) (by decide)⟩,
    by decide, hbehind (2 ^ 64 - 1) (by decide)⟩

end PatternAutomata.Text
