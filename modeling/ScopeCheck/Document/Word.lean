import ScopeCheck.Tree.Label

namespace ScopeCheck

inductive NodeKind where
  | ifThen | whileDo | block | ret
  | operation | constant | identifier | element | call
  | variable | function | parameter
  deriving DecidableEq, Repr

namespace NodeKind

/-- Every kind. A document may give a kind by its place in this list. -/
def all : List NodeKind :=
  [ifThen, whileDo, block, ret, operation, constant, identifier, element, call, .variable, function,
    parameter]

def word : NodeKind → String
  | ifThen => "if"
  | whileDo => "while"
  | block => "compound"
  | ret => "return"
  | operation => "op"
  | constant => "const"
  | identifier => "id"
  | element => "array_id"
  | call => "call"
  | .variable => "var"
  | function => "fun"
  | parameter => "param"

def ofWord? (word : String) : Option NodeKind := all.find? (·.word = word)

def ofStatement : Statement → NodeKind
  | .ifThen => ifThen
  | .whileDo => whileDo
  | .block => block
  | .ret => ret

def ofDeclaration : DeclarationKind → NodeKind
  | .variable => .variable
  | .function => function
  | .parameter => parameter

end NodeKind

def Label.kind : Label → NodeKind
  | .statement stmt => .ofStatement stmt
  | .expression (.operation _) => .operation
  | .expression (.constant _) => .constant
  | .expression (.identifier _) => .identifier
  | .expression (.element _) => .element
  | .expression (.call _) => .call
  | .declaration decl => .ofDeclaration decl.kind

namespace Operator

def all : List Operator := [assign, plus, minus, times, .over, lt, le, gt, ge, eq, ne]

def word : Operator → String
  | assign => "assign"
  | plus => "plus"
  | minus => "minus"
  | times => "times"
  | .over => "over"
  | lt => "lt"
  | le => "le"
  | gt => "gt"
  | ge => "ge"
  | eq => "eq"
  | ne => "ne"

def ofWord? (word : String) : Option Operator := all.find? (·.word = word)

end Operator

namespace ValueType

def all : List ValueType := [void, integer, array]

def word : ValueType → String
  | void => "void"
  | integer => "integer"
  | array => "array"

def ofWord? (word : String) : Option ValueType := all.find? (·.word = word)

end ValueType

end ScopeCheck
