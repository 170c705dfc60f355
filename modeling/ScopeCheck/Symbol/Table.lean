import ScopeCheck.IndexMap
import ScopeCheck.Scope.Table
import ScopeCheck.Tree.Basic

namespace ScopeCheck

abbrev SymbolId := Nat

/-- Where a symbol comes from: a declaration node, or the language itself. The parameters of a
function are read off its node, those of a builtin are listed. -/
inductive Origin where
  | node (id : NodeId)
  | builtin (params : List ValueType)
  deriving DecidableEq, Repr, Inhabited

structure Definition where
  name : String
  kind : DeclarationKind
  type : ValueType
  line : UInt32
  origin : Origin
  deriving DecidableEq, Repr, Inhabited

/-- A definition in its scope, with the lines that use it in the order they were met. -/
structure Symbol extends Definition where
  scope : ScopeId
  slot : UInt32
  references : Array UInt32
  deriving DecidableEq, Repr, Inhabited

/-- The names of one scope, the latest declaration first. -/
abbrev Names := List (String × SymbolId)

/-- A scope shows the last symbol declared under a name; a name that it does not have is looked for
in its parent. -/
structure SymbolTable where
  symbols : Array Symbol
  names : IndexMap Names
  deriving DecidableEq, Repr, Inhabited

namespace SymbolTable

def empty : SymbolTable := ⟨#[], .empty⟩

def size (table : SymbolTable) : Nat := table.symbols.size

def get? (table : SymbolTable) (id : SymbolId) : Option Symbol := table.symbols[id]?

def namesOf (table : SymbolTable) (scope : ScopeId) : Names := (table.names.get? scope).getD []

/-- Adds a symbol, whose number is the size that the table had. -/
def declare (table : SymbolTable) (scope : ScopeId) (slot : UInt32) (definition : Definition) :
    SymbolTable :=
  ⟨table.symbols.push { definition with scope, slot, references := #[] },
    table.names.insert scope ((definition.name, table.size) :: table.namesOf scope)⟩

def lookupLocal (table : SymbolTable) (name : String) (scope : ScopeId) : Option SymbolId :=
  (table.namesOf scope).lookup name

/-- The symbol that a name means in a scope: that of the innermost scope around it that has one. -/
def lookup (table : SymbolTable) (scopes : ScopeTable) (name : String) (scope : ScopeId) :
    Option SymbolId :=
  (scopes.ancestors scope).findSome? (table.lookupLocal name)

def addReference (table : SymbolTable) (id : SymbolId) (line : UInt32) : SymbolTable :=
  { table with
    symbols := table.symbols.modify id fun symbol =>
      { symbol with references := symbol.references.push line } }

/-- The numbers of the symbols that satisfy a condition, in order. -/
def idsWhere (table : SymbolTable) (condition : Symbol → Bool) : List SymbolId :=
  (List.range table.size).filter fun id => (table.get? id).any condition

def inScope (table : SymbolTable) (scope : ScopeId) : List SymbolId :=
  table.idsWhere (·.scope = scope)

end SymbolTable

end ScopeCheck
