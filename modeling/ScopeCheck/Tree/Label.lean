namespace ScopeCheck

inductive ValueType where
  | void
  | integer
  | array
  deriving DecidableEq, Repr, Inhabited

namespace ValueType

/-- The spelling of a type in messages and tables. -/
def text : ValueType → String
  | void => "void"
  | integer => "int"
  | array => "int[]"

end ValueType

inductive Operator where
  | assign | plus | minus | times | over
  | lt | le | gt | ge | eq | ne
  deriving DecidableEq, Repr, Inhabited

namespace Operator

def symbol : Operator → String
  | assign => "="
  | plus => "+"
  | minus => "-"
  | times => "*"
  | .over => "/"
  | lt => "<"
  | le => "<="
  | gt => ">"
  | ge => ">="
  | eq => "=="
  | ne => "!="

end Operator

/-- The child slots of a statement: `ifThen` holds the condition and its two branches, `whileDo`
the condition and the body, `block` the local declarations and the statements, `ret` the
value if there is one. -/
inductive Statement where
  | ifThen
  | whileDo
  | block
  | ret
  deriving DecidableEq, Repr, Inhabited

namespace Statement

def keyword : Statement → String
  | ifThen => "if"
  | whileDo => "while"
  | block => "\x7b \x7d"
  | ret => "return"

end Statement

/-- The child slots of an expression: `operation` holds its left and right operands, `element` the
index into the named array, `call` the first argument. -/
inductive Expression where
  | operation (op : Operator)
  | constant (value : Int64)
  | identifier (name : String)
  | element (name : String)
  | call (callee : String)
  deriving DecidableEq, Repr, Inhabited

namespace Expression

/-- The name that an expression uses; operations and constants use none. -/
def name? : Expression → Option String
  | identifier name | element name | call name => some name
  | operation _ | constant _ => none

end Expression

inductive DeclarationKind where
  | variable
  | function
  | parameter
  deriving DecidableEq, Repr, Inhabited

/-- A declared name. The type of a function is the type of what it returns; its child slots hold
the first parameter and the body. -/
structure Declaration where
  kind : DeclarationKind
  name : String
  type : ValueType
  size : Option UInt32
  deriving DecidableEq, Repr, Inhabited

inductive Label where
  | statement (stmt : Statement)
  | expression (expr : Expression)
  | declaration (decl : Declaration)
  deriving DecidableEq, Repr, Inhabited

namespace Label

inductive Category where
  | statement
  | expression
  | declaration
  deriving DecidableEq, Repr

def category : Label → Category
  | statement _ => .statement
  | expression _ => .expression
  | declaration _ => .declaration

def isBlock (label : Label) : Bool := label = statement .block

def declaration? : Label → Option Declaration
  | declaration decl => some decl
  | _ => none

end Label

end ScopeCheck
