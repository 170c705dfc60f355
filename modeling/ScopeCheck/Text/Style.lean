namespace ScopeCheck.Text

inductive Style where
  | bold
  | dimmed
  | green
  | cyan
  | yellow
  | red
  | boldYellow
  | boldRed
  deriving DecidableEq, Repr

namespace Style

/-- The parameters of the escape sequence that switches a style on. -/
def parameters : Style → String
  | bold => "1"
  | dimmed => "2"
  | green => "32"
  | cyan => "36"
  | yellow => "33"
  | red => "31"
  | boldYellow => "1;33"
  | boldRed => "1;31"

/-- Sets a text in a style, or leaves it plain where there is no colour. -/
def paint (style : Style) (color : Bool) (text : String) : String :=
  if color then "\x1b[" ++ style.parameters ++ "m" ++ text ++ "\x1b[0m" else text

end Style

/-- What is known about colour around the program: whether it is forbidden, and whether the output
shows it where it is not. -/
structure Display where
  noColor : Bool
  color : Bool
  deriving DecidableEq, Repr

def Display.plain : Display := ⟨false, false⟩

end ScopeCheck.Text
