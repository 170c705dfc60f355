import ScopeCheck.Proofs.Report.Contents
import ScopeCheck.Proofs.Report.TextLines

namespace ScopeCheck

open Text

namespace JsonReport

theorem Severity.word_inj {severity other : Severity} :
    severity.word = other.word ↔ severity = other := by
  cases severity <;> cases other <;> decide

/-- The letter that the codes of a severity start with. -/
def letter : Severity → Char
  | .symbol => 'S'
  | .type => 'T'

theorem code_head (kind : FaultKind) : kind.code.toList.head? = some (letter kind.severity) := by
  cases kind <;> decide

namespace Contents

/-- All findings in the order in which they are listed, each with the path of its tree. -/
def findings (contents : Contents) : List (String × Finding) :=
  contents.trees.flatMap fun tree => tree.findings.map (tree.path, ·)

/-- What a report says about itself is what it lists. -/
structure Consistent (contents : Contents) : Prop where
  totalTrees : contents.totalTrees = contents.trees.length
  symbolErrors : contents.symbolErrors = contents.findings.countP (·.2.severity = "symbol")
  typeErrors : contents.typeErrors = contents.findings.countP (·.2.severity = "type")
  totalDiagnostics :
    contents.totalDiagnostics = (contents.trees.map fun tree => tree.findings.length).sum
  treesWithErrors : contents.treesWithErrors = contents.trees.countP (·.findings ≠ [])
  hasSymbolErrors : ∀ tree ∈ contents.trees,
    (tree.hasSymbolErrors = true ↔ ∃ finding ∈ tree.findings, finding.severity = "symbol")
  hasTypeErrors : ∀ tree ∈ contents.trees,
    (tree.hasTypeErrors = true ↔ ∃ finding ∈ tree.findings, finding.severity = "type")
  letters : ∀ finding ∈ contents.findings,
    (finding.2.code.toList.head? = some 'S' ∧ finding.2.severity = "symbol") ∨
      (finding.2.code.toList.head? = some 'T' ∧ finding.2.severity = "type")

theorem findings_ofReports (symbols : Bool) (workingDirectory : String)
    (reports : List TreeReport) :
    (ofReports symbols workingDirectory reports).findings =
      (TreeReport.diagnostics reports).map fun (path, diagnostic) =>
        (path, .ofDiagnostic diagnostic) := by
  simp [findings, ofReports, TreeContents.ofReport, TreeReport.diagnostics, List.flatMap_map,
    List.map_flatMap, Function.comp_def]

theorem countP_findings (symbols : Bool) (workingDirectory : String) (reports : List TreeReport)
    (severity : Severity) :
    (ofReports symbols workingDirectory reports).findings.countP
        (·.2.severity = severity.word) = TreeReport.count reports severity := by
  rw [findings_ofReports, List.countP_map, TreeReport.count]
  congr 1
  funext entry
  simp only [Function.comp_apply, Finding.ofDiagnostic, Severity.word_inj]

theorem hasErrors_iff (report : TreeReport) (severity : Severity) :
    report.model.hasErrors severity = true ↔
      ∃ finding ∈ report.model.diagnostics.toList.map Finding.ofDiagnostic,
        finding.severity = severity.word := by
  rw [Model.hasErrors, List.any_eq_true]
  constructor
  · rintro ⟨diagnostic, hmem, hseverity⟩
    exact ⟨_, List.mem_map_of_mem hmem, Severity.word_inj.mpr (of_decide_eq_true hseverity)⟩
  · rintro ⟨_, hmem, hseverity⟩
    obtain ⟨diagnostic, hdiagnostic, rfl⟩ := List.mem_map.mp hmem
    exact ⟨diagnostic, hdiagnostic, decide_eq_true (Severity.word_inj.mp hseverity)⟩

theorem consistent_ofReports (symbols : Bool) (workingDirectory : String)
    (reports : List TreeReport) :
    (ofReports symbols workingDirectory reports).Consistent where
  totalTrees := (List.length_map ..).symm
  symbolErrors := (countP_findings symbols workingDirectory reports .symbol).symm
  typeErrors := (countP_findings symbols workingDirectory reports .type).symm
  totalDiagnostics := by
    simp only [ofReports, TreeReport.count_add_count, List.map_map]
    congr 2
    funext report
    exact (List.length_map ..).symm
  treesWithErrors := by
    simp only [ofReports, List.countP_map]
    congr 1
    funext report
    simp [TreeContents.ofReport, Array.size_pos_iff]
  hasSymbolErrors tree htree := by
    obtain ⟨report, -, rfl⟩ := List.mem_map.mp htree
    exact hasErrors_iff report .symbol
  hasTypeErrors tree htree := by
    obtain ⟨report, -, rfl⟩ := List.mem_map.mp htree
    exact hasErrors_iff report .type
  letters finding hfinding := by
    rw [findings_ofReports] at hfinding
    obtain ⟨⟨path, diagnostic⟩, -, rfl⟩ := List.mem_map.mp hfinding
    have hhead := code_head diagnostic.kind
    simp only [Finding.ofDiagnostic, Diagnostic.severity, hhead]
    cases diagnostic.kind.severity <;> decide

end Contents

/-- The two reports on the same trees and the exit status agree. The JSON report counts what it
lists; the text ends with the line for the same counts, and without symbols its other lines are those
of the same diagnostics in the same order, if no path or name breaks a line; and the run fails just
when there is an error that counts. -/
theorem reports_agree (symbols color : Bool) (workingDirectory : String)
    (reports : List TreeReport) :
    ∃ contents : Contents,
      Contents.read? (format symbols workingDirectory reports) = some contents ∧
      contents.Consistent ∧
      contents.totalTrees = reports.length ∧
      contents.findings = (TreeReport.diagnostics reports).map
        (fun (path, diagnostic) => (path, .ofDiagnostic diagnostic)) ∧
      (EndsWithLine (TextReport.format ⟨symbols, color⟩ reports)
        (TextReport.cleanLine color contents.totalTrees) ↔ contents.totalDiagnostics = 0) ∧
      (contents.totalDiagnostics ≠ 0 → EndsWithLine (TextReport.format ⟨symbols, color⟩ reports)
        (TextReport.foundLine contents.symbolErrors contents.typeErrors contents.totalTrees)) ∧
      ((∀ report ∈ reports, OneLine report.path ∧
          ∀ diagnostic ∈ report.model.diagnostics.toList, ∀ name ∈ diagnostic.fault.names,
            OneLine name) →
        lines (TextReport.format ⟨false, color⟩ reports).toList =
          (TextReport.findingLines ⟨false, color⟩ reports ++ TextReport.closingLines color
            contents.symbolErrors contents.typeErrors contents.totalTrees).map String.toList) ∧
      (TreeReport.gateFails reports false = true ↔ 0 < contents.typeErrors) ∧
      (TreeReport.gateFails reports true = true ↔ 0 < contents.totalDiagnostics) := by
  refine ⟨.ofReports symbols workingDirectory reports, Contents.read?_format ..,
    Contents.consistent_ofReports .., rfl, Contents.findings_ofReports ..,
    ⟨fun hclean => ?_, TextReport.endsWithLine_cleanLine⟩, TextReport.endsWithLine_foundLine,
    TextReport.lines_format, TreeReport.gateFails_false_iff, TreeReport.gateFails_true_iff⟩
  refine Decidable.byContradiction fun hsome => ?_
  exact TextReport.cleanLine_ne_foundLine _ _ _ _
    (hclean.unique (TextReport.endsWithLine_foundLine hsome))

theorem reports_agree_on_undeclared :
    lines (TextReport.format ⟨false, false⟩
        [⟨"y.json", ⟨default, default, default, #[⟨3, .undeclaredIdentifier "y"⟩]⟩⟩]).toList =
      ["y.json: Symbol error at line 3: `y` is not declared [S002]", "",
        "Found 1 symbol error(s) and 0 type error(s) in 1 tree(s)"].map String.toList := by
  obtain ⟨contents, hread, -, -, -, -, -, hlines, -⟩ := reports_agree false false ""
    [⟨"y.json", ⟨default, default, default, #[⟨3, .undeclaredIdentifier "y"⟩]⟩⟩]
  cases (Contents.read?_format ..).symm.trans hread
  exact (hlines (by simp [Fault.names]; decide)).trans (by decide +kernel)

end JsonReport

end ScopeCheck
