import ScopeCheck.Report.Basic
import ScopeCheck.Text.Style

namespace ScopeCheck.TextReport

open Text (Style)

structure Options where
  symbols : Bool
  color : Bool
  deriving DecidableEq, Repr

def severityStyle : Severity → Style
  | .symbol => .boldYellow
  | .type => .boldRed

def diagnosticLine (options : Options) (path : String) (diagnostic : Diagnostic) : String :=
  path ++ ": " ++ (severityStyle diagnostic.severity).paint options.color diagnostic.severity.label
    ++ " at line " ++ diagnostic.lineText ++ ": " ++ diagnostic.message
    ++ " [" ++ Style.dimmed.paint options.color diagnostic.kind.code ++ "]"

def symbolTable (options : Options) (report : TreeReport) : List Char :=
  ("\n" ++ Style.bold.paint options.color "Symbol table of" ++ " " ++ report.path ++ "\n").toList
    ++ (SymbolRow.table report.model.listing).text ++ ['\n']

def treeText (options : Options) (report : TreeReport) : List Char :=
  report.model.diagnostics.toList.flatMap
      (fun diagnostic => (diagnosticLine options report.path diagnostic).toList ++ ['\n'])
    ++ if options.symbols then symbolTable options report else []

/-- The number of errors of a severity in all trees. -/
def total (reports : List TreeReport) (severity : Severity) : Nat :=
  reports.foldr (fun report n => report.model.count severity + n) 0

def summary (options : Options) (reports : List TreeReport) : String :=
  let symbolErrors := total reports .symbol
  let typeErrors := total reports .type
  let trees := " in " ++ toString reports.length ++ " tree(s)"
  if symbolErrors + typeErrors = 0 then
    Style.green.paint options.color ("No errors found" ++ trees) ++ "\n"
  else
    "\nFound " ++ toString symbolErrors ++ " symbol error(s) and " ++ toString typeErrors
      ++ " type error(s)" ++ trees ++ "\n"

def format (options : Options) (reports : List TreeReport) : String :=
  String.ofList (reports.flatMap (treeText options)) ++ summary options reports

end ScopeCheck.TextReport
