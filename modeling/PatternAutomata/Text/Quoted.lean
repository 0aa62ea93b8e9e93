import PatternAutomata.Text.Extending
import PatternAutomata.Text.Invisible

/-!
# Quoted text

Records show texts between double quotes.  Quotes and backslashes have a
backslash in front, and the common controls have a letter.  A character that
would not be seen by itself, because it is invisible or extends the one before
it, is shown by its number.  So a record stays on one line, and different texts
look different.
-/

namespace PatternAutomata.Text

/-- Whether a character is shown by its number. -/
def isHidden (c : Char) : Bool := extending.has c || invisible.has c

/-- A character by its number. -/
def numbered (c : Char) : String :=
  "\\u\x7b" ++ String.ofList (Nat.toDigits 16 c.toNat) ++ "\x7d"

/-- A character as it stands between double quotes. -/
def quotedChar : Char → String
  | '"' => "\\\""
  | '\\' => "\\\\"
  | '\t' => "\\t"
  | '\n' => "\\n"
  | '\r' => "\\r"
  | '\x00' => "\\0"
  | c => if isHidden c then numbered c else String.singleton c

/-- A text between double quotes. -/
def quoted (text : String) : String :=
  "\"" ++ String.join (text.toList.map quotedChar) ++ "\""

/-! ## Tests -/

example : quoted "x'\"\\\t\n\r" = "\"x'\\\"\\\\\\t\\n\\r\"" := by decide +kernel

example : quoted "é e\u0301\u00a0" = "\"é e\\u\x7b301\x7d\\u\x7ba0\x7d\"" := by decide +kernel

end PatternAutomata.Text
