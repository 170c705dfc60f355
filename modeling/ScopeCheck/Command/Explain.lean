import ScopeCheck.Command.Outcome
import ScopeCheck.Diagnostic.Catalog
import ScopeCheck.Text.Style

namespace ScopeCheck.Explain

open Text (Display Style)

def severityStyle : Severity → Style
  | .symbol => .yellow
  | .type => .red

def field (color : Bool) (name value : String) : String :=
  "  " ++ Style.cyan.paint color name ++ ": " ++ value

def lines (color : Bool) (kind : FaultKind) : List String :=
  ["", Style.bold.paint color ("Diagnostic " ++ kind.code), "", field color "Name" kind.name,
    field color "Severity" ((severityStyle kind.severity).paint color kind.severity.label),
    field color "Description" kind.description, "", "  " ++ Style.cyan.paint color "Example" ++ ":"]
    ++ kind.sample.map ("    " ++ ·) ++ [""]

def unknownLines (color : Bool) (query : String) : List String :=
  [Style.boldRed.paint color "error:" ++ " unknown diagnostic '" ++ query ++ "'", "",
    "Available diagnostics:"]
    ++ FaultKind.all.map fun kind => "  " ++ kind.code ++ " (" ++ kind.name ++ ")"

def textOf (lines : List String) : String := "".intercalate (lines.map (· ++ "\n"))

def run (display : Display) (query : String) : Outcome :=
  match FaultKind.find? query with
  | some kind => ⟨0, textOf (lines display.color kind), ""⟩
  | none => ⟨1, "", textOf (unknownLines display.color query)⟩

end ScopeCheck.Explain
