namespace ScopeCheck

/-- A symbol error is found while names are resolved, a type error while expressions are typed. -/
inductive Severity where
  | symbol
  | type
  deriving DecidableEq, Repr, Inhabited

namespace Severity

def word : Severity → String
  | symbol => "symbol"
  | type => "type"

def label : Severity → String
  | symbol => "Symbol error"
  | type => "Type error"

end Severity

inductive FaultKind where
  | duplicateDeclaration
  | undeclaredIdentifier
  | voidOperand
  | operandTypeMismatch
  | arrayArrayOp
  | arrayArithmetic
  | indexTypeError
  | arityMismatch
  | voidArgument
  | argTypeMismatch
  | voidCondition
  | returnTypeMismatch
  deriving DecidableEq, Repr, Inhabited

namespace FaultKind

def all : List FaultKind :=
  [duplicateDeclaration, undeclaredIdentifier, voidOperand, operandTypeMismatch, arrayArrayOp,
    arrayArithmetic, indexTypeError, arityMismatch, voidArgument, argTypeMismatch, voidCondition,
    returnTypeMismatch]

def severity : FaultKind → Severity
  | duplicateDeclaration | undeclaredIdentifier => .symbol
  | _ => .type

def code : FaultKind → String
  | duplicateDeclaration => "S001"
  | undeclaredIdentifier => "S002"
  | voidOperand => "T001"
  | operandTypeMismatch => "T002"
  | arrayArrayOp => "T003"
  | arrayArithmetic => "T004"
  | indexTypeError => "T005"
  | arityMismatch => "T006"
  | voidArgument => "T007"
  | argTypeMismatch => "T008"
  | voidCondition => "T009"
  | returnTypeMismatch => "T010"

def name : FaultKind → String
  | duplicateDeclaration => "DuplicateDeclaration"
  | undeclaredIdentifier => "UndeclaredIdentifier"
  | voidOperand => "VoidOperand"
  | operandTypeMismatch => "OperandTypeMismatch"
  | arrayArrayOp => "ArrayArrayOp"
  | arrayArithmetic => "ArrayArithmetic"
  | indexTypeError => "IndexTypeError"
  | arityMismatch => "ArityMismatch"
  | voidArgument => "VoidArgument"
  | argTypeMismatch => "ArgTypeMismatch"
  | voidCondition => "VoidCondition"
  | returnTypeMismatch => "ReturnTypeMismatch"

def description : FaultKind → String
  | duplicateDeclaration =>
    "A name is declared twice in the same scope. Declaring the same name in a nested block or function shadows the outer one and is allowed."
  | undeclaredIdentifier =>
    "A variable, array or function is used where no enclosing scope declares it. Locals of one function are invisible in another."
  | voidOperand =>
    "The result of a void function is used as an operand. Void values can only be discarded."
  | operandTypeMismatch =>
    "The two operands of an operator or assignment have different types, such as an int and an array."
  | arrayArrayOp => "Both operands of an arithmetic or comparison operator are whole arrays."
  | arrayArithmetic =>
    "An array appears in subtraction from an int, or in a multiplication or division."
  | indexTypeError => "An array is indexed with something other than an int."
  | arityMismatch => "A call supplies more or fewer arguments than the function declares."
  | voidArgument => "A void value is passed as a call argument."
  | argTypeMismatch =>
    "An argument's type differs from the declared parameter type, such as an int passed where an array is expected."
  | voidCondition => "The condition of an if or while statement is a void value."
  | returnTypeMismatch =>
    "A void function returns a value, or an int function returns nothing or a non-int value."

def sample : FaultKind → List String
  | duplicateDeclaration => ["int x;", "int x;"]
  | undeclaredIdentifier => ["void f(void) \x7b int x; \x7d", "void g(void) \x7b x = 1; \x7d"]
  | voidOperand => ["int x;", "x = output(1) + 1;"]
  | operandTypeMismatch => ["int a[10];", "int x;", "x = a;"]
  | arrayArrayOp => ["int a[10];", "int b[5];", "int c;", "c = a - b;"]
  | arrayArithmetic => ["int a[10];", "int x;", "x = x * a;"]
  | indexTypeError => ["int a[10];", "int b[10];", "a[b] = 1;"]
  | arityMismatch => ["int f(int x) \x7b return x; \x7d", "f(1, 2);"]
  | voidArgument => ["output(output(1));"]
  | argTypeMismatch => ["void sort(int a[]) \x7b \x7d", "sort(3);"]
  | voidCondition => ["if (output(1)) \x7b \x7d"]
  | returnTypeMismatch => ["int f(void) \x7b return; \x7d"]

/-- Finds a kind by its code or its name. Upper and lower case of ASCII letters are one. -/
def find? (query : String) : Option FaultKind :=
  all.find? fun kind => kind.code.toLower = query.toLower || kind.name.toLower = query.toLower

end FaultKind

end ScopeCheck
