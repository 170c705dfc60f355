import ScopeCheck.Json.Printer
import ScopeCheck.Report.Basic

namespace ScopeCheck

def programVersion : String := "0.1.0"

namespace JsonReport

open Json

def formVersion : String := "1.0"

def kindWord : DeclarationKind → String
  | .variable => "variable"
  | .function => "function"
  | .parameter => "parameter"

def ofDiagnostic (diagnostic : Diagnostic) : Json :=
  ofMembers [
    ("code", ofText diagnostic.kind.code),
    ("name", ofText diagnostic.kind.name),
    ("severity", ofText diagnostic.severity.word),
    ("line", ofNat diagnostic.line.toNat),
    ("message", ofText diagnostic.message)]

def ofRow (row : SymbolRow) : Json :=
  ofMembers [
    ("name", ofText row.name),
    ("kind", ofText (kindWord row.kind)),
    ("type", ofText row.type.text),
    ("slot", ofNat row.slot.toNat),
    ("scope", ofText row.scope),
    ("depth", ofNat row.depth),
    ("lines", .array (row.lines.map fun line => ofNat line.toNat))]

/-- The report of one tree; its symbols are listed if they are asked for. -/
def ofTree (symbols : Bool) (report : TreeReport) : Json :=
  ofMembers ([
    ("path", ofText report.path),
    ("has_symbol_errors", .boolean (report.model.hasErrors .symbol)),
    ("has_type_errors", .boolean (report.model.hasErrors .type)),
    ("diagnostics", .array (report.model.diagnostics.toList.map ofDiagnostic))]
    ++ if symbols then [("symbols", .array (report.model.listing.map ofRow))] else [])

/-- What is counted over the trees. -/
structure Tally where
  symbolErrors : Nat
  typeErrors : Nat
  treesWithErrors : Nat
  deriving DecidableEq, Repr

namespace Tally

def add (tally : Tally) (report : TreeReport) : Tally :=
  let symbolErrors := report.model.count .symbol
  let typeErrors := report.model.count .type
  { symbolErrors := tally.symbolErrors + symbolErrors
    typeErrors := tally.typeErrors + typeErrors
    treesWithErrors :=
      if 0 < symbolErrors + typeErrors then tally.treesWithErrors + 1 else tally.treesWithErrors }

def ofReports (reports : List TreeReport) : Tally := reports.foldl add ⟨0, 0, 0⟩

end Tally

def summary (reports : List TreeReport) : Json :=
  let tally := Tally.ofReports reports
  ofMembers [
    ("total_trees", ofNat reports.length),
    ("trees_with_errors", ofNat tally.treesWithErrors),
    ("total_diagnostics", ofNat (tally.symbolErrors + tally.typeErrors)),
    ("by_severity", ofMembers [
      ("symbol", ofNat tally.symbolErrors), ("type", ofNat tally.typeErrors)])]

def ofReports (symbols : Bool) (workingDirectory : String) (reports : List TreeReport) : Json :=
  ofMembers [
    ("version", ofText formVersion),
    ("metadata", ofMembers [
      ("cminus_version", ofText programVersion),
      ("working_directory", ofText workingDirectory)]),
    ("summary", summary reports),
    ("trees", .array (reports.map (ofTree symbols)))]

def format (symbols : Bool) (workingDirectory : String) (reports : List TreeReport) : String :=
  (ofReports symbols workingDirectory reports).pretty

end JsonReport

end ScopeCheck
