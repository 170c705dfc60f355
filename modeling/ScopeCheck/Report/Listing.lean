import ScopeCheck.Analysis.Model
import ScopeCheck.Text.Table

namespace ScopeCheck

structure SymbolRow where
  name : String
  kind : DeclarationKind
  type : ValueType
  slot : UInt32
  scope : String
  /-- How many scopes stand around the symbol's own; none stands around the global one. -/
  depth : Nat
  /-- The line of the declaration, then those of the uses. -/
  lines : List UInt32
  deriving DecidableEq, Repr, Inhabited

namespace SymbolRow

def ofSymbol (scope : String) (depth : Nat) (symbol : Symbol) : SymbolRow where
  name := symbol.name
  kind := symbol.kind
  type := symbol.type
  slot := symbol.slot
  scope := scope
  depth := depth
  lines := symbol.line :: symbol.references.toList

def linesText (row : SymbolRow) : String :=
  ", ".intercalate (row.lines.map fun line => toString line.toNat)

def cells (row : SymbolRow) : List String :=
  [row.name, row.type.text, toString row.slot.toNat, row.scope, row.linesText]

end SymbolRow

namespace Model

def rowsOf (model : Model) (scope : ScopeId) : List SymbolRow :=
  match model.scopes.get? scope with
  | none => []
  | some found =>
    ((model.symbols.inScope scope).filterMap model.symbols.get?).map
      (.ofSymbol found.name (model.scopes.depth scope))

def listing (model : Model) : List SymbolRow :=
  (List.range model.scopes.size).flatMap model.rowsOf

end Model

def SymbolRow.table (rows : List SymbolRow) : Text.Table where
  header := ["Name", "Type", "Slot", "Scope", "Lines"]
  rows := rows.map cells

end ScopeCheck
