import Mathlib.Algebra.GroupWithZero.Nat
import ScopeCheck.Report.Basic

namespace ScopeCheck

namespace Model

theorem count_add_count (model : Model) :
    model.count .symbol + model.count .type = model.diagnostics.size := by
  rw [← Array.length_toList, List.length_eq_countP_add_countP (·.severity = .symbol), count, count]
  congr 2
  funext diagnostic
  cases diagnostic.severity <;> rfl

theorem hasErrors_eq_true_iff {model : Model} {severity : Severity} :
    model.hasErrors severity = true ↔ 0 < model.count severity := by
  rw [hasErrors, count, List.countP_pos_iff, List.any_eq_true]

end Model

namespace TreeReport

/-- All diagnostics in order, each with the path of its tree. -/
def diagnostics (reports : List TreeReport) : List (String × Diagnostic) :=
  reports.flatMap fun report => report.model.diagnostics.toList.map (report.path, ·)

/-- How many of all diagnostics are of a severity. -/
def count (reports : List TreeReport) (severity : Severity) : Nat :=
  (diagnostics reports).countP (·.2.severity = severity)

theorem count_cons (report : TreeReport) (reports : List TreeReport) (severity : Severity) :
    count (report :: reports) severity = report.model.count severity + count reports severity := by
  rw [count, diagnostics, List.flatMap_cons, List.countP_append, List.countP_map]
  rfl

theorem count_add_count (reports : List TreeReport) :
    count reports .symbol + count reports .type =
      (reports.map fun report => report.model.diagnostics.toList.length).sum := by
  induction reports with
  | nil => rfl
  | cons report reports ih =>
    have hreport := report.model.count_add_count
    rw [count_cons, count_cons, List.map_cons, List.sum_cons, ← ih, Array.length_toList]
    omega

theorem count_pos_iff {reports : List TreeReport} {severity : Severity} :
    0 < count reports severity ↔ ∃ report ∈ reports, 0 < report.model.count severity := by
  induction reports with
  | nil => simp [count, diagnostics]
  | cons report reports ih =>
    simp only [count_cons, Nat.add_pos_iff_pos_or_pos, ih, List.mem_cons, exists_eq_or_imp]

variable {reports : List TreeReport}

theorem gateFails_iff (failOnSymbolErrors : Bool) :
    gateFails reports failOnSymbolErrors = true ↔
      (∃ report ∈ reports, report.model.hasErrors .type = true) ∨
        (failOnSymbolErrors = true ∧ ∃ report ∈ reports, report.model.hasErrors .symbol = true) := by
  simp only [gateFails, List.any_eq_true, Bool.or_eq_true, Bool.and_eq_true]
  grind

theorem gateFails_false_iff : gateFails reports false = true ↔ 0 < count reports .type := by
  simp only [gateFails_iff, count_pos_iff, Model.hasErrors_eq_true_iff, Bool.false_eq_true,
    false_and, or_false]

theorem gateFails_true_iff :
    gateFails reports true = true ↔ 0 < count reports .symbol + count reports .type := by
  simp only [gateFails_iff, Nat.add_pos_iff_pos_or_pos, count_pos_iff, Model.hasErrors_eq_true_iff,
    true_and, or_comm]

end TreeReport

end ScopeCheck
