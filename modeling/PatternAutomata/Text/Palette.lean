/-!
# Terminal colours

A palette says whether styled text carries colour codes.  The plain palette
leaves text as it is.  The other one puts the code of the style in front of the
text and a reset behind it.  A reset that the text holds itself would end the
style early, so the code is put again behind each of them.
-/

namespace PatternAutomata.Text

/-- The styles that diagnostics use. -/
inductive Style where
  | boldRed
  | green

/-- Whether styled text carries colour codes. -/
inductive Palette where
  | plain
  | ansi

/-- The code that turns a style on. -/
def Style.code : Style → String
  | .boldRed => "\x1b[1;31m"
  | .green => "\x1b[32m"

/-- The code that turns every style off. -/
def resetCode : String := "\x1b[0m"

/-- A text in a style. -/
def Palette.paint (palette : Palette) (style : Style) (text : String) : String :=
  match palette with
  | .plain => text
  | .ansi => style.code ++ text.replace resetCode (resetCode ++ style.code) ++ resetCode

@[simp] theorem Palette.paint_plain (style : Style) (text : String) :
    Palette.plain.paint style text = text := rfl

end PatternAutomata.Text
