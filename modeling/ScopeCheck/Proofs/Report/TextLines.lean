import ScopeCheck.Proofs.Report.Counts
import ScopeCheck.Proofs.Text.Lines
import ScopeCheck.Report.Text

namespace ScopeCheck

open Text

theorem Operator.oneLine_symbol (op : Operator) : OneLine op.symbol := by cases op <;> decide

theorem Statement.oneLine_keyword (stmt : Statement) : OneLine stmt.keyword := by
  cases stmt <;> decide

theorem ValueType.oneLine_text (type : ValueType) : OneLine type.text := by cases type <;> decide

namespace Fault

/-- The names that a fault is told with. -/
def names : Fault → List String
  | duplicateDeclaration name | undeclaredIdentifier name | indexTypeError name _ => [name]
  | arityMismatch callee .. | voidArgument callee _ | argTypeMismatch callee .. => [callee]
  | returnTypeMismatch function .. => [function]
  | voidOperand _ | operandTypeMismatch .. | arrayArrayOp _ | arrayArithmetic _
  | voidCondition _ => []

theorem oneLine_message {fault : Fault} (h : ∀ name ∈ fault.names, OneLine name) :
    OneLine fault.message := by
  cases fault with
  | returnTypeMismatch function expected found =>
    cases found <;>
      · dsimp only [message]
        simp only [quoted, oneLine_append, ValueType.oneLine_text, h _ List.mem_cons_self, and_true]
        decide
  | voidOperand | operandTypeMismatch | arrayArrayOp | arrayArithmetic | voidCondition =>
    dsimp only [message]
    simp only [quoted, oneLine_append, Operator.oneLine_symbol, ValueType.oneLine_text,
      Statement.oneLine_keyword, and_true]
    decide
  | _ =>
    dsimp only [message]
    simp only [quoted, oneLine_append, oneLine_toString, ValueType.oneLine_text,
      h _ List.mem_cons_self, and_true]
    decide

end Fault

namespace TextReport

variable {options : Options} {reports : List TreeReport}

theorem oneLine_diagnosticLine {path : String} {diagnostic : Diagnostic} (hpath : OneLine path)
    (hnames : ∀ name ∈ diagnostic.fault.names, OneLine name) :
    OneLine (diagnosticLine options path diagnostic) := by
  have hmessage : OneLine diagnostic.message := Fault.oneLine_message hnames
  have hlabel : OneLine diagnostic.severity.label := by cases diagnostic.severity <;> decide
  have hcode : OneLine diagnostic.kind.code := by cases diagnostic.kind <;> decide
  simp only [diagnosticLine, Diagnostic.lineText, oneLine_append, oneLine_paint, oneLine_toString,
    hpath, hmessage, hlabel, hcode, and_true]
  decide

/-- The line that says that there are no errors. -/
def cleanLine (color : Bool) (trees : Nat) : String :=
  Style.green.paint color ("No errors found" ++ (" in " ++ toString trees ++ " tree(s)"))

def foundLine (symbolErrors typeErrors trees : Nat) : String :=
  "Found " ++ toString symbolErrors ++ " symbol error(s) and " ++ toString typeErrors
    ++ " type error(s)" ++ (" in " ++ toString trees ++ " tree(s)")

theorem oneLine_cleanLine (color : Bool) (trees : Nat) : OneLine (cleanLine color trees) := by
  simp only [cleanLine, oneLine_paint, oneLine_append, oneLine_toString, and_true]
  decide

theorem oneLine_foundLine (symbolErrors typeErrors trees : Nat) :
    OneLine (foundLine symbolErrors typeErrors trees) := by
  simp only [foundLine, oneLine_append, oneLine_toString, and_true]
  decide

theorem cleanLine_ne_foundLine (color : Bool) (trees symbolErrors typeErrors : Nat) :
    cleanLine color trees ≠ foundLine symbolErrors typeErrors trees := by
  intro heq
  have hhead := congrArg (fun line : String => line.toList.head?) heq
  cases color <;> simp [cleanLine, foundLine, Style.paint] at hhead

/-- The lines that sum up. -/
def closingLines (color : Bool) (symbolErrors typeErrors trees : Nat) : List String :=
  if symbolErrors + typeErrors = 0 then [cleanLine color trees]
  else ["", foundLine symbolErrors typeErrors trees]

def findingLines (options : Options) (reports : List TreeReport) : List String :=
  (TreeReport.diagnostics reports).map fun (path, diagnostic) =>
    diagnosticLine options path diagnostic

theorem oneLine_closingLines (color : Bool) (symbolErrors typeErrors trees : Nat) :
    ∀ line ∈ closingLines color symbolErrors typeErrors trees, OneLine line := by
  intro line hline
  rw [closingLines] at hline
  split at hline
  · rw [List.mem_singleton.mp hline]
    exact oneLine_cleanLine color trees
  · rcases List.mem_cons.mp hline with rfl | hline
    · decide
    · rw [List.mem_singleton.mp hline]
      exact oneLine_foundLine symbolErrors typeErrors trees

theorem total_eq_count (reports : List TreeReport) (severity : Severity) :
    total reports severity = TreeReport.count reports severity := by
  induction reports with
  | nil => rfl
  | cons report reports ih =>
    rw [TreeReport.count_cons, ← ih]
    rfl

theorem toList_summary (options : Options) (reports : List TreeReport) :
    (summary options reports).toList =
      (closingLines options.color (TreeReport.count reports .symbol)
        (TreeReport.count reports .type) reports.length).flatMap
          fun line => line.toList ++ ['\n'] := by
  simp only [summary, closingLines, total_eq_count]
  split
  · simp [cleanLine]
  · simp [foundLine]

theorem toList_format (options : Options) (reports : List TreeReport) :
    (format options reports).toList =
      reports.flatMap (treeText options) ++ (summary options reports).toList := by
  rw [format, String.toList_append, String.toList_ofList]

def findingLine (color : Bool) (path : String) (diagnostic : Diagnostic) : String :=
  let label := match diagnostic.severity with
    | .symbol => Style.boldYellow.paint color "Symbol error"
    | .type => Style.boldRed.paint color "Type error"
  path ++ ": " ++ label ++ " at line " ++ toString diagnostic.line.toNat ++ ": "
    ++ diagnostic.message ++ " [" ++ Style.dimmed.paint color diagnostic.kind.code ++ "]"

/-- The symbols of a tree: a title and their table, between empty lines. -/
def symbolLines (color : Bool) (report : TreeReport) : List (List Char) :=
  [[], (Style.bold.paint color "Symbol table of" ++ " " ++ report.path).toList]
    ++ (SymbolRow.table report.model.listing).lines ++ [[]]

/-- The lines of a report: for each tree those of its diagnostics and, where they are asked for, of its
symbols; then those that sum up. -/
def reportLines (symbols color : Bool) (reports : List TreeReport) : List (List Char) :=
  (reports.flatMap fun report =>
    (report.model.diagnostics.toList.map fun diagnostic =>
      (findingLine color report.path diagnostic).toList)
      ++ if symbols then symbolLines color report else [])
    ++ (closingLines color (TreeReport.count reports .symbol) (TreeReport.count reports .type)
      reports.length).map String.toList

theorem diagnosticLine_eq (options : Options) (path : String) (diagnostic : Diagnostic) :
    diagnosticLine options path diagnostic = findingLine options.color path diagnostic := by
  rw [diagnosticLine, findingLine]
  cases diagnostic.severity <;> rfl

theorem symbolTable_eq (options : Options) (report : TreeReport) :
    symbolTable options report = (symbolLines options.color report).flatMap (· ++ ['\n']) := by
  simp [symbolTable, symbolLines, Table.text]

theorem toList_format_eq (options : Options) (reports : List TreeReport) :
    (format options reports).toList =
      (reportLines options.symbols options.color reports).flatMap (· ++ ['\n']) := by
  rw [toList_format, toList_summary, reportLines, List.flatMap_append, List.flatMap_assoc,
    List.flatMap_map]
  congr 1
  refine congrArg (reports.flatMap ·) (funext fun report => ?_)
  rw [treeText, List.flatMap_append, List.flatMap_map]
  congr 1
  · simp only [diagnosticLine_eq]
  · split
    · exact symbolTable_eq options report
    · rfl

theorem endsLine_treeText (options : Options) (report : TreeReport) :
    EndsLine (treeText options report) := by
  refine .append (.flatMap (fun diagnostic => .line _) _) ?_
  split
  · exact .line _
  · exact .nil

theorem endsLine_body (options : Options) (reports : List TreeReport) :
    EndsLine (reports.flatMap (treeText options)) :=
  .flatMap (endsLine_treeText options) reports

theorem endsWithLine_cleanLine
    (h : TreeReport.count reports .symbol + TreeReport.count reports .type = 0) :
    EndsWithLine (format options reports) (cleanLine options.color reports.length) := by
  refine ⟨oneLine_cleanLine _ _, _, endsLine_body options reports, ?_⟩
  simp [toList_format, toList_summary, closingLines, h]

theorem endsWithLine_foundLine
    (h : TreeReport.count reports .symbol + TreeReport.count reports .type ≠ 0) :
    EndsWithLine (format options reports)
      (foundLine (TreeReport.count reports .symbol) (TreeReport.count reports .type)
        reports.length) := by
  refine ⟨oneLine_foundLine _ _ _, _, (endsLine_body options reports).append (.line []), ?_⟩
  rw [toList_format, toList_summary, closingLines, if_neg h]
  simp

/-- A report without symbols, in which no name or path breaks a line, has a line for each diagnostic
and the lines that sum up. -/
theorem lines_format {color : Bool} {reports : List TreeReport}
    (h : ∀ report ∈ reports, OneLine report.path ∧
      ∀ diagnostic ∈ report.model.diagnostics.toList, ∀ name ∈ diagnostic.fault.names,
        OneLine name) :
    lines (format ⟨false, color⟩ reports).toList =
      (findingLines ⟨false, color⟩ reports ++ closingLines color (TreeReport.count reports .symbol)
        (TreeReport.count reports .type) reports.length).map String.toList := by
  have hbody : reports.flatMap (treeText ⟨false, color⟩) =
      (findingLines ⟨false, color⟩ reports).flatMap fun line => line.toList ++ ['\n'] := by
    have htree : treeText ⟨false, color⟩ = fun report => report.model.diagnostics.toList.flatMap
        fun diagnostic => (diagnosticLine ⟨false, color⟩ report.path diagnostic).toList ++ ['\n'] :=
      funext fun report => List.append_nil _
    simp [findingLines, TreeReport.diagnostics, htree, List.flatMap_map, List.flatMap_assoc]
  have hfindings : ∀ line ∈ findingLines ⟨false, color⟩ reports, OneLine line := by
    intro line hline
    obtain ⟨_, hmem, rfl⟩ := List.mem_map.mp hline
    obtain ⟨report, hreport, hmem⟩ := List.mem_flatMap.mp hmem
    obtain ⟨diagnostic, hdiagnostic, rfl⟩ := List.mem_map.mp hmem
    obtain ⟨hpath, hnames⟩ := h report hreport
    exact oneLine_diagnosticLine hpath (hnames diagnostic hdiagnostic)
  have hclosing := lines_flatMap (oneLine_closingLines color (TreeReport.count reports .symbol)
    (TreeReport.count reports .type) reports.length) []
  rw [List.append_nil] at hclosing
  rw [toList_format, hbody, toList_summary, lines_flatMap hfindings, hclosing, List.map_append]
  exact congrArg _ (List.append_nil _)

end TextReport

end ScopeCheck
