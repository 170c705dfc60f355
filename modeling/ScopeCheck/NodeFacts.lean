import ScopeCheck.IndexMap
import ScopeCheck.Symbol.Table

namespace ScopeCheck

/-- What is found out about nodes: the type of an expression, the scope of a block, the symbol that
a name means, and the symbol that a declaration gives. -/
structure NodeFacts where
  types : IndexMap ValueType
  scopes : IndexMap ScopeId
  resolutions : IndexMap SymbolId
  declarations : IndexMap SymbolId
  deriving DecidableEq, Repr, Inhabited

namespace NodeFacts

def empty : NodeFacts := ⟨.empty, .empty, .empty, .empty⟩

def typeOf (facts : NodeFacts) (id : NodeId) : Option ValueType := facts.types.get? id

def scopeOf (facts : NodeFacts) (id : NodeId) : Option ScopeId := facts.scopes.get? id

def resolution (facts : NodeFacts) (id : NodeId) : Option SymbolId := facts.resolutions.get? id

def declared (facts : NodeFacts) (id : NodeId) : Option SymbolId := facts.declarations.get? id

def setType (facts : NodeFacts) (id : NodeId) (type : ValueType) : NodeFacts :=
  { facts with types := facts.types.insert id type }

/-- A block keeps the first scope it is given. -/
def bindScope (facts : NodeFacts) (id : NodeId) (scope : ScopeId) : NodeFacts :=
  if facts.scopes.contains id then facts
  else { facts with scopes := facts.scopes.insert id scope }

def resolve (facts : NodeFacts) (id : NodeId) (symbol : SymbolId) : NodeFacts :=
  { facts with resolutions := facts.resolutions.insert id symbol }

def recordDeclaration (facts : NodeFacts) (id : NodeId) (symbol : SymbolId) : NodeFacts :=
  { facts with declarations := facts.declarations.insert id symbol }

def typedCount (facts : NodeFacts) : Nat := facts.types.count

end NodeFacts

end ScopeCheck
