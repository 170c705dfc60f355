import ScopeCheck.Diagnostic.Catalog
import ScopeCheck.Tree.Label

namespace ScopeCheck

inductive Fault where
  | duplicateDeclaration (name : String)
  | undeclaredIdentifier (name : String)
  | voidOperand (op : Operator)
  | operandTypeMismatch (op : Operator) (left right : ValueType)
  | arrayArrayOp (op : Operator)
  | arrayArithmetic (op : Operator)
  | indexTypeError (name : String) (found : ValueType)
  | arityMismatch (callee : String) (expected found : Nat)
  | voidArgument (callee : String) (position : Nat)
  | argTypeMismatch (callee : String) (position : Nat) (expected found : ValueType)
  | voidCondition (stmt : Statement)
  | returnTypeMismatch (function : String) (expected : ValueType) (found : Option ValueType)
  deriving DecidableEq, Repr, Inhabited

namespace Fault

def kind : Fault → FaultKind
  | duplicateDeclaration .. => .duplicateDeclaration
  | undeclaredIdentifier .. => .undeclaredIdentifier
  | voidOperand .. => .voidOperand
  | operandTypeMismatch .. => .operandTypeMismatch
  | arrayArrayOp .. => .arrayArrayOp
  | arrayArithmetic .. => .arrayArithmetic
  | indexTypeError .. => .indexTypeError
  | arityMismatch .. => .arityMismatch
  | voidArgument .. => .voidArgument
  | argTypeMismatch .. => .argTypeMismatch
  | voidCondition .. => .voidCondition
  | returnTypeMismatch .. => .returnTypeMismatch

def quoted (word : String) : String := "`" ++ word ++ "`"

def message : Fault → String
  | duplicateDeclaration name => quoted name ++ " is already declared in this scope"
  | undeclaredIdentifier name => quoted name ++ " is not declared"
  | voidOperand op => "void value used as an operand of " ++ quoted op.symbol
  | operandTypeMismatch op left right =>
    "operands of " ++ quoted op.symbol ++ " must have the same type, found " ++ left.text ++ " and "
      ++ right.text
  | arrayArrayOp op => "operands of " ++ quoted op.symbol ++ " cannot both be arrays"
  | arrayArithmetic op => quoted op.symbol ++ " is not defined on arrays"
  | indexTypeError name found => "index of " ++ quoted name ++ " must be int, found " ++ found.text
  | arityMismatch callee expected found =>
    quoted callee ++ " takes " ++ toString expected ++ " argument(s) but " ++ toString found
      ++ " were supplied"
  | voidArgument callee position =>
    "argument " ++ toString position ++ " of " ++ quoted callee ++ " is void"
  | argTypeMismatch callee position expected found =>
    "argument " ++ toString position ++ " of " ++ quoted callee ++ " must be " ++ expected.text
      ++ ", found " ++ found.text
  | voidCondition stmt => "condition of " ++ quoted stmt.keyword ++ " is void"
  | returnTypeMismatch function expected found =>
    quoted function ++ " returns " ++ expected.text ++ ", but this return gives "
      ++ match found with
        | some type => type.text
        | none => "no value"

end Fault

structure Diagnostic where
  line : UInt32
  fault : Fault
  deriving DecidableEq, Repr, Inhabited

namespace Diagnostic

def kind (diagnostic : Diagnostic) : FaultKind := diagnostic.fault.kind

def severity (diagnostic : Diagnostic) : Severity := diagnostic.kind.severity

def message (diagnostic : Diagnostic) : String := diagnostic.fault.message

def lineText (diagnostic : Diagnostic) : String := toString diagnostic.line.toNat

def text (diagnostic : Diagnostic) : String :=
  diagnostic.severity.label ++ " at line " ++ diagnostic.lineText ++ ": " ++ diagnostic.message

end Diagnostic

end ScopeCheck
