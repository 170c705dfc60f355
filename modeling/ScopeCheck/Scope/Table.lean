namespace ScopeCheck

abbrev ScopeId := Nat

inductive ScopeKind where
  | global
  | function
  | block
  deriving DecidableEq, Repr, Inhabited

/-- A scope is named after the function around it. -/
structure Scope where
  kind : ScopeKind
  name : String
  parent : Option ScopeId
  children : Array ScopeId
  deriving DecidableEq, Repr, Inhabited

def Scope.globalName : String := "Global"

/-- Scopes are numbered in the order they are created, a parent always before its children. -/
structure ScopeTable where
  scopes : Array Scope
  /-- The first scope created. -/
  root : Option ScopeId
  deriving DecidableEq, Repr, Inhabited

namespace ScopeTable

def empty : ScopeTable := ⟨#[], none⟩

def size (table : ScopeTable) : Nat := table.scopes.size

def get? (table : ScopeTable) (id : ScopeId) : Option Scope := table.scopes[id]?

def addChild (table : ScopeTable) (parent child : ScopeId) : ScopeTable :=
  { table with scopes :=
      table.scopes.modify parent fun scope => { scope with children := scope.children.push child } }

/-- Adds a scope, whose number is the size that the table had, and tells its parent. It becomes the
root if there is none yet. -/
def create (table : ScopeTable) (kind : ScopeKind) (name : String) (parent : Option ScopeId) :
    ScopeTable :=
  let added := { table with scopes := table.scopes.push ⟨kind, name, parent, #[]⟩ }
  let linked := match parent with
    | none => added
    | some parent => added.addChild parent table.size
  { linked with root := linked.root.or (some table.size) }

def parent (table : ScopeTable) (id : ScopeId) : Option ScopeId := (table.get? id).bind Scope.parent

def children (table : ScopeTable) (id : ScopeId) : List ScopeId :=
  match table.get? id with
  | none => []
  | some scope => scope.children.toList

/-- At most `fuel` scopes on the way outward. -/
def ancestorsUpTo (table : ScopeTable) : Nat → Option ScopeId → List ScopeId
  | 0, _ => []
  | _, none => []
  | fuel + 1, some id =>
    match table.get? id with
    | none => []
    | some scope => id :: table.ancestorsUpTo fuel scope.parent

/-- A scope, its parent, and so on outward. No scope comes twice, so the size of the table is
enough. -/
def ancestors (table : ScopeTable) (id : ScopeId) : List ScopeId :=
  table.ancestorsUpTo table.size (some id)

def isDescendantOf (table : ScopeTable) (id ancestor : ScopeId) : Bool :=
  (table.ancestors id).contains ancestor

/-- How many scopes stand around a scope. -/
def depth (table : ScopeTable) (id : ScopeId) : Nat := (table.ancestors id).length - 1

end ScopeTable

end ScopeCheck
