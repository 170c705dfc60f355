import ScopeCheck.Analysis.Builtin
import ScopeCheck.Analysis.Resolution
import ScopeCheck.Analysis.Typing

namespace ScopeCheck

structure Model where
  scopes : ScopeTable
  symbols : SymbolTable
  facts : NodeFacts
  diagnostics : Array Diagnostic
  deriving DecidableEq, Repr, Inhabited

namespace Model

def count (model : Model) (severity : Severity) : Nat :=
  model.diagnostics.toList.countP (·.severity = severity)

def hasErrors (model : Model) (severity : Severity) : Bool :=
  model.diagnostics.toList.any (·.severity = severity)

def symbolsNamed (model : Model) (name : String) : List SymbolId :=
  model.symbols.idsWhere (·.name = name)

end Model

def State.toModel (state : State) : Model :=
  ⟨state.scopes, state.symbols, state.facts, state.diagnostics⟩

def State.start (builtins : Bool) : State :=
  if builtins then State.initial.declareBuiltins else State.initial

/-- Resolves the names of a tree, then types its expressions. -/
def analyze (builtins : Bool) (tree : Tree) : Except AnalysisError Model :=
  match (do resolveNames tree; checkTypes tree : Pass) (.start builtins) with
  | .ok () state => .ok state.toModel
  | .error error _ => .error error

end ScopeCheck
