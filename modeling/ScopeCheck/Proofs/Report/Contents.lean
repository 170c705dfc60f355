import ScopeCheck.Proofs.Json.Members
import ScopeCheck.Proofs.Json.RoundTrip
import ScopeCheck.Proofs.Report.Counts
import ScopeCheck.Report.Json

namespace ScopeCheck

namespace Json

def nat? (value : Json) : Option Nat := value.int?.bind Int.toNat?

def boolean? : Json → Option Bool
  | .boolean value => some value
  | _ => none

@[simp]
theorem nat?_ofNat (n : Nat) : (ofNat n).nat? = some n := by
  simp [nat?, int?_ofNat, Int.toNat?]

@[simp]
theorem boolean?_boolean (value : Bool) : (boolean value).boolean? = some value := rfl

end Json

namespace JsonReport

open Json

theorem Tally.foldl_add (tally : Tally) (reports : List TreeReport) :
    reports.foldl add tally =
      ⟨tally.symbolErrors + TreeReport.count reports .symbol,
        tally.typeErrors + TreeReport.count reports .type,
        tally.treesWithErrors + reports.countP (0 < ·.model.diagnostics.size)⟩ := by
  induction reports generalizing tally with
  | nil => rfl
  | cons report reports ih =>
    rw [List.foldl_cons, ih, TreeReport.count_cons, TreeReport.count_cons, List.countP_cons]
    simp only [add, report.model.count_add_count, Tally.mk.injEq, decide_eq_true_eq]
    refine ⟨Nat.add_assoc .., Nat.add_assoc .., ?_⟩
    split <;> omega

/-- What is said about a diagnostic. -/
structure Finding where
  code : String
  name : String
  severity : String
  line : UInt32
  message : String
  deriving DecidableEq, Repr

/-- What is said about a symbol. -/
structure SymbolEntry where
  name : String
  kind : String
  type : String
  slot : UInt32
  scope : String
  depth : Nat
  lines : List UInt32
  deriving DecidableEq, Repr

/-- What is said about a tree. The symbols may be left out. -/
structure TreeContents where
  path : String
  hasSymbolErrors : Bool
  hasTypeErrors : Bool
  findings : List Finding
  symbols : Option (List SymbolEntry)
  deriving DecidableEq, Repr

structure Contents where
  version : String
  programVersion : String
  workingDirectory : String
  totalTrees : Nat
  treesWithErrors : Nat
  totalDiagnostics : Nat
  symbolErrors : Nat
  typeErrors : Nat
  trees : List TreeContents
  deriving DecidableEq, Repr

namespace Finding

def ofDiagnostic (diagnostic : Diagnostic) : Finding where
  code := diagnostic.kind.code
  name := diagnostic.kind.name
  severity := diagnostic.severity.word
  line := diagnostic.line
  message := diagnostic.message

def ofJson? (value : Json) : Option Finding := do
  let members ← value.namedMembers?
  return {
    code := ← member? "code" members text?
    name := ← member? "name" members text?
    severity := ← member? "severity" members text?
    line := ← member? "line" members word32?
    message := ← member? "message" members text? }

theorem ofJson?_ofDiagnostic (diagnostic : Diagnostic) :
    ofJson? (JsonReport.ofDiagnostic diagnostic) = some (.ofDiagnostic diagnostic) := by
  rw [ofJson?, JsonReport.ofDiagnostic, namedMembers?_ofMembers, Option.bind_eq_bind,
    Option.bind_some]
  simp (disch := simp) only [member?_cons_of_ne, member?_cons_self, text?_ofText, word32?_ofNat,
    Option.bind_eq_bind, Option.bind_some, Option.pure_def]
  rfl

end Finding

namespace SymbolEntry

def ofRow (row : SymbolRow) : SymbolEntry where
  name := row.name
  kind := kindWord row.kind
  type := row.type.text
  slot := row.slot
  scope := row.scope
  depth := row.depth
  lines := row.lines

def ofJson? (value : Json) : Option SymbolEntry := do
  let members ← value.namedMembers?
  return {
    name := ← member? "name" members text?
    kind := ← member? "kind" members text?
    type := ← member? "type" members text?
    slot := ← member? "slot" members word32?
    scope := ← member? "scope" members text?
    depth := ← member? "depth" members nat?
    lines := ← member? "lines" members (list? word32?) }

theorem ofJson?_ofRow (row : SymbolRow) : ofJson? (JsonReport.ofRow row) = some (.ofRow row) := by
  have hlines := list?_map (f := id) word32?_ofNat row.lines
  rw [List.map_id] at hlines
  rw [ofJson?, JsonReport.ofRow, namedMembers?_ofMembers, Option.bind_eq_bind, Option.bind_some]
  simp (disch := simp) only [member?_cons_of_ne, member?_cons_self, text?_ofText, nat?_ofNat,
    word32?_ofNat, hlines, Option.bind_eq_bind, Option.bind_some, Option.pure_def]
  rfl

end SymbolEntry

namespace TreeContents

def ofReport (symbols : Bool) (report : TreeReport) : TreeContents where
  path := report.path
  hasSymbolErrors := report.model.hasErrors .symbol
  hasTypeErrors := report.model.hasErrors .type
  findings := report.model.diagnostics.toList.map .ofDiagnostic
  symbols := if symbols then some (report.model.listing.map .ofRow) else none

def ofJson? (value : Json) : Option TreeContents := do
  let members ← value.namedMembers?
  return {
    path := ← member? "path" members text?
    hasSymbolErrors := ← member? "has_symbol_errors" members boolean?
    hasTypeErrors := ← member? "has_type_errors" members boolean?
    findings := ← member? "diagnostics" members (list? Finding.ofJson?)
    symbols := ← memberD "symbols" members (fun value => (list? SymbolEntry.ofJson? value).map some)
      none }

theorem ofJson?_ofTree (symbols : Bool) (report : TreeReport) :
    ofJson? (JsonReport.ofTree symbols report) = some (.ofReport symbols report) := by
  have hfindings := list?_map Finding.ofJson?_ofDiagnostic report.model.diagnostics.toList
  have hsymbols := list?_map SymbolEntry.ofJson?_ofRow report.model.listing
  cases symbols <;>
    simp [ofJson?, JsonReport.ofTree, ofReport, hfindings, hsymbols]

end TreeContents

namespace Contents

def ofReports (symbols : Bool) (workingDirectory : String) (reports : List TreeReport) :
    Contents where
  version := formVersion
  programVersion := ScopeCheck.programVersion
  workingDirectory := workingDirectory
  totalTrees := reports.length
  treesWithErrors := reports.countP (0 < ·.model.diagnostics.size)
  totalDiagnostics := TreeReport.count reports .symbol + TreeReport.count reports .type
  symbolErrors := TreeReport.count reports .symbol
  typeErrors := TreeReport.count reports .type
  trees := reports.map (.ofReport symbols)

def ofJson? (value : Json) : Option Contents := do
  let members ← value.namedMembers?
  let metadata ← member? "metadata" members namedMembers?
  let summary ← member? "summary" members namedMembers?
  let severities ← member? "by_severity" summary namedMembers?
  return {
    version := ← member? "version" members text?
    programVersion := ← member? "cminus_version" metadata text?
    workingDirectory := ← member? "working_directory" metadata text?
    totalTrees := ← member? "total_trees" summary nat?
    treesWithErrors := ← member? "trees_with_errors" summary nat?
    totalDiagnostics := ← member? "total_diagnostics" summary nat?
    symbolErrors := ← member? "symbol" severities nat?
    typeErrors := ← member? "type" severities nat?
    trees := ← member? "trees" members (list? TreeContents.ofJson?) }

/-- The contents of a text, if it is a report. -/
def read? (text : String) : Option Contents := (parse? text.toList).bind ofJson?

theorem ofJson?_ofReports (symbols : Bool) (workingDirectory : String)
    (reports : List TreeReport) :
    ofJson? (JsonReport.ofReports symbols workingDirectory reports) =
      some (.ofReports symbols workingDirectory reports) := by
  have htrees := list?_map (TreeContents.ofJson?_ofTree symbols) reports
  have htally := Tally.foldl_add ⟨0, 0, 0⟩ reports
  simp only [Nat.zero_add] at htally
  rw [ofJson?, JsonReport.ofReports, namedMembers?_ofMembers, Option.bind_eq_bind,
    Option.bind_some]
  -- The names alone are compared: the values of the members are large.
  simp (disch := simp only [List.forall_mem_cons, ne_eq, String.reduceEq, not_false_eq_true,
    true_and, List.not_mem_nil, false_implies, implies_true]) only [summary, Tally.ofReports, htally,
    namedMembers?_ofMembers, member?_cons_of_ne, member?_cons_self, text?_ofText, nat?_ofNat,
    htrees, Option.bind_eq_bind, Option.bind_some, Option.pure_def]
  rfl

end Contents

theorem writable_ofDiagnostic (diagnostic : Diagnostic) : (ofDiagnostic diagnostic).Writable :=
  writable_ofMembers (by simp)

theorem writable_ofRow (row : SymbolRow) : (ofRow row).Writable := by
  have hlines := writable_map (fun line : UInt32 => writable_ofNat line.toNat) row.lines
  exact writable_ofMembers (by simp [hlines])

theorem writable_ofTree (symbols : Bool) (report : TreeReport) :
    (ofTree symbols report).Writable := by
  have hdiagnostics := writable_map writable_ofDiagnostic report.model.diagnostics.toList
  have hsymbols := writable_map writable_ofRow report.model.listing
  refine writable_ofMembers ?_
  cases symbols <;> simp [hdiagnostics, hsymbols, Writable.boolean]

theorem writable_ofReports (symbols : Bool) (workingDirectory : String)
    (reports : List TreeReport) : (ofReports symbols workingDirectory reports).Writable := by
  have htrees := writable_map (writable_ofTree symbols) reports
  have hmetadata : (ofMembers [("cminus_version", ofText programVersion),
      ("working_directory", ofText workingDirectory)]).Writable := writable_ofMembers (by simp)
  have hseverities : (ofMembers [("symbol", ofNat (Tally.ofReports reports).symbolErrors),
      ("type", ofNat (Tally.ofReports reports).typeErrors)]).Writable := writable_ofMembers (by simp)
  have hsummary : (summary reports).Writable := writable_ofMembers (by simp [hseverities])
  exact writable_ofMembers (by simp [htrees, hmetadata, hsummary])

theorem parse?_format (symbols : Bool) (workingDirectory : String) (reports : List TreeReport) :
    parse? (format symbols workingDirectory reports).toList =
      some (ofReports symbols workingDirectory reports) :=
  parse?_pretty (writable_ofReports symbols workingDirectory reports)

theorem Contents.read?_format (symbols : Bool) (workingDirectory : String)
    (reports : List TreeReport) :
    read? (format symbols workingDirectory reports) =
      some (.ofReports symbols workingDirectory reports) := by
  rw [read?, parse?_format, Option.bind_some, ofJson?_ofReports]

/-- The text of a report is JSON and loses nothing: it is read back as the value it was written for,
and that value still holds everything the report says about every tree, in the order of the trees.
The symbols are there just when they were asked for. -/
theorem format_lossless (symbols : Bool) (workingDirectory : String) (reports : List TreeReport) :
    parse? (format symbols workingDirectory reports).toList =
        some (ofReports symbols workingDirectory reports) ∧
      Contents.read? (format symbols workingDirectory reports) =
        some (.ofReports symbols workingDirectory reports) ∧
      ∀ tree ∈ (Contents.ofReports symbols workingDirectory reports).trees,
        tree.symbols.isSome = symbols := by
  refine ⟨parse?_format .., Contents.read?_format .., fun tree htree => ?_⟩
  obtain ⟨report, -, rfl⟩ := List.mem_map.mp htree
  cases symbols <;> rfl

end JsonReport

end ScopeCheck
