import PatternAutomata.Proofs.Text.Columns

/-!
# Offsets behind ASCII characters

An offset counts bytes and a caret counts characters.  Between two parts of a text the
caret goes behind as many characters as the first part has (`caretColumn_append`).  If
these are ASCII they are as many as there are bytes, and the caret stands in the column
of the offset (`Splits.caretColumn_eq`).
-/

namespace PatternAutomata.Text

variable {s text before behind : String} {position : Nat}

/-- All characters of a text are ASCII. -/
def IsAscii (s : String) : Prop := ∀ c ∈ s.toList, c.toNat < 128

theorem utf8Size_of_ascii {c : Char} (h : c.toNat < 128) : c.utf8Size = 1 :=
  Char.utf8Size_eq_one_iff.mpr (UInt32.le_iff_toNat_le.mpr (Nat.le_of_lt_succ h))

/-- An ASCII text takes one byte for each character. -/
theorem IsAscii.utf8ByteSize_eq (h : IsAscii s) : s.utf8ByteSize = s.toList.length := by
  have hlist : ∀ cs : List Char, (∀ c ∈ cs, c.toNat < 128) →
      (String.ofList cs).utf8ByteSize = cs.length := by
    intro cs hcs
    induction cs with
    | nil => rfl
    | cons c cs ih =>
      rw [List.forall_mem_cons] at hcs
      rw [utf8ByteSize_ofList_cons, utf8Size_of_ascii hcs.1, ih hcs.2, List.length_cons,
        Nat.add_comm]
  rw [← hlist s.toList h, String.ofList_toList]

/-- Between two parts of a text the caret goes behind the characters of the first. -/
theorem caretColumn_append (before behind : String) :
    caretColumn (before ++ behind) before.utf8ByteSize = before.toList.length := by
  have hle : before.toList.length ≤ (before ++ behind).toList.length := by
    rw [String.toList_append, List.length_append]
    exact Nat.le_add_right _ _
  rw [← offsetAt_append before behind, caretColumn_offsetAt hle]

/-- An offset splits a text in two, and the first part is ASCII. -/
structure Splits (text : String) (position : Nat) (before behind : String) : Prop where
  /-- The two parts make the text. -/
  text_eq : text = before ++ behind
  /-- The offset stands between them. -/
  position_eq : position = before.utf8ByteSize
  /-- What stands in front of the offset is ASCII. -/
  ascii : IsAscii before

namespace Splits

variable (h : Splits text position before behind)
include h

/-- No character stands on both sides of the offset. -/
theorem isValid : (String.Pos.Raw.mk position).IsValid text :=
  String.Pos.Raw.isValid_iff_exists_append.mpr
    ⟨before, behind, h.text_eq, congrArg String.Pos.Raw.mk h.position_eq⟩

theorem position_le : position ≤ text.utf8ByteSize := by
  rw [h.text_eq, h.position_eq, String.utf8ByteSize_append]
  exact Nat.le_add_right _ _

/-- The offset stands at the end if and only if nothing is behind it. -/
theorem position_eq_iff : position = text.utf8ByteSize ↔ behind = "" := by
  rw [h.text_eq, h.position_eq, String.utf8ByteSize_append, Nat.left_eq_add,
    String.utf8ByteSize_eq_zero_iff]

/-- The caret stands in the column of the offset. -/
theorem caretColumn_eq : caretColumn text position = position := by
  rw [h.text_eq, h.position_eq, caretColumn_append, h.ascii.utf8ByteSize_eq]

end Splits

end PatternAutomata.Text
