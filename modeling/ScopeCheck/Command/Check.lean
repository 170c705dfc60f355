import ScopeCheck.Command.Arguments
import ScopeCheck.Command.Outcome
import ScopeCheck.Document.File
import ScopeCheck.Report.Json
import ScopeCheck.Report.Text
import ScopeCheck.Settings.Discovery

namespace ScopeCheck

open Text (Display Style)

inductive ReportForm where
  | text
  | json
  deriving DecidableEq, Repr

def ReportForm.ofWord? : String → Option ReportForm
  | "text" => some .text
  | "json" => some .json
  | _ => none

namespace Failure

def ofForm (word : String) : Failure :=
  ⟨"Invalid format '" ++ word ++ "'. Valid values: text, json", []⟩

def ofSettings (error : SettingsError) : Failure := ⟨error.message, []⟩

def ofLoading (path : Path) (error : LoadError) : Failure :=
  ⟨"Failed to load syntax tree " ++ path.text, error.messages⟩

def ofAnalysis (path : Path) (error : AnalysisError) : Failure :=
  ⟨"Analysis of " ++ path.text ++ " did not complete", [error.message]⟩

end Failure

namespace CheckRequest

/-- The settings are those of the directory of the first tree. -/
def settingsStart (trees : List Path) : Path :=
  match trees.head?.bind Path.parent? with
  | some ⟨""⟩ | none => ⟨"."⟩
  | some directory => directory

/-- The paths whose entries decide what comes out. -/
def paths (request : CheckRequest) : List Path :=
  Settings.candidates (settingsStart request.trees) ++ request.trees

def checkTree (files : Files) (builtins : Bool) (path : Path) : Except Failure TreeReport := do
  let tree ← (Tree.load files path).mapError (.ofLoading path)
  let model ← (analyze builtins tree).mapError (.ofAnalysis path)
  return ⟨path.text, model⟩

def checkTrees (files : Files) (builtins : Bool) (trees : List Path) :
    Except Failure (List TreeReport) :=
  trees.mapM (checkTree files builtins)

/-- Colour is left out if the command line or the surroundings forbid it. -/
def color (request : CheckRequest) (display : Display) : Bool :=
  if request.noColor || display.noColor then false else display.color

def render (form : ReportForm) (options : TextReport.Options) (workingDirectory : String)
    (reports : List TreeReport) : String :=
  match form with
  | .json => JsonReport.format options.symbols workingDirectory reports ++ "\n"
  | .text => TextReport.format options reports

def warningLines (color : Bool) (warnings : List String) : String :=
  "".intercalate (warnings.map fun warning =>
    Style.boldYellow.paint color "warning:" ++ " " ++ warning ++ "\n")

def run (files : Files) (workingDirectory : String) (display : Display) (request : CheckRequest) :
    Outcome :=
  let color := request.color display
  match ReportForm.ofWord? request.format with
  | none => (Failure.ofForm request.format).outcome ""
  | some form =>
    match Settings.discover files (settingsStart request.trees) with
    | .error error => (Failure.ofSettings error).outcome ""
    | .ok ⟨settings, _, warnings⟩ =>
      let notices := warningLines color warnings
      match checkTrees files settings.builtins request.trees with
      | .error failure => failure.outcome notices
      | .ok reports =>
        let symbols := request.symbols || settings.symbols
        let failOnSymbolErrors := request.failOnSymbolErrors || settings.failOnSymbolErrors
        ⟨if TreeReport.gateFails reports failOnSymbolErrors then 1 else 0,
          render form ⟨symbols, color⟩ workingDirectory reports, notices⟩

end CheckRequest

end ScopeCheck
