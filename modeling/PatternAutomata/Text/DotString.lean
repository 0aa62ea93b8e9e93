/-!
# Strings of the DOT language

A string stands between double quotes.  In it two backslashes stand for one, and a
backslash in front of a quote stands for the quote.  Any other backslash stands for itself.
The first quote without a backslash of its own ends the string.
-/

namespace PatternAutomata.Text.DotString

/-- The text up to the closing quote and what follows it, if there is a closing quote. -/
def unquote : List Char → Option (List Char × List Char)
  | [] => none
  | '"' :: rest => some ([], rest)
  | '\\' :: '\\' :: rest => (unquote rest).map fun (text, behind) => ('\\' :: text, behind)
  | '\\' :: '"' :: rest => (unquote rest).map fun (text, behind) => ('"' :: text, behind)
  | c :: rest => (unquote rest).map fun (text, behind) => (c :: text, behind)

/-- The text of the string that comes first, and what follows it. -/
def read : List Char → Option (List Char × List Char)
  | '"' :: rest => unquote rest
  | _ => none

/-- What is written is one string, and it stands for the text. -/
def Spells (written text : String) : Prop := read written.toList = some (text.toList, [])

instance (written text : String) : Decidable (Spells written text) :=
  inferInstanceAs (Decidable (_ = _))

/-! ## Tests -/

example : Spells "\"a\\\"b\\\\\\n\"" "a\"b\\\\n" := by decide +kernel

example : ¬Spells "\"a\"b\"" "a\"b" := by decide +kernel

end PatternAutomata.Text.DotString
