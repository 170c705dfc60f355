import ScopeCheck.Report.Listing

namespace ScopeCheck

/-- The model of one tree, under the path it was read from. -/
structure TreeReport where
  path : String
  model : Model
  deriving DecidableEq, Repr, Inhabited

namespace TreeReport

/-- Whether the run fails: for a type error always, for a symbol error if asked to. -/
def gateFails (reports : List TreeReport) (failOnSymbolErrors : Bool) : Bool :=
  reports.any fun report =>
    report.model.hasErrors .type || (failOnSymbolErrors && report.model.hasErrors .symbol)

end TreeReport

end ScopeCheck
