import ScopeCheck.Diagnostic.Basic

namespace ScopeCheck

/-- A part of an expression: where it stands, and its type if it has one. -/
structure Operand where
  line : UInt32
  type : Option ValueType
  deriving DecidableEq, Repr, Inhabited

/-- What a rule says: the type, if there is one, and the complaints in order. -/
structure Verdict where
  type : Option ValueType
  reports : List Diagnostic
  deriving DecidableEq, Repr, Inhabited

namespace Verdict

def typed (type : ValueType) : Verdict := ⟨some type, []⟩

def untyped : Verdict := ⟨none, []⟩

def refused (line : UInt32) (fault : Fault) : Verdict := ⟨none, [⟨line, fault⟩]⟩

end Verdict

namespace Judgement

/-- An operation on two values of known types, none of them void. `line` is that of the operation;
operands that do not match are reported where the left one stands. -/
def operationOn (line : UInt32) (op : Operator) (leftLine : UInt32) (left right : ValueType) :
    Verdict :=
  let mismatch := Verdict.refused leftLine (.operandTypeMismatch op left right)
  match op, left, right with
  | .assign, _, _ => if left = right then .typed left else mismatch
  | _, .array, .array => .refused line (.arrayArrayOp op)
  | .minus, .integer, .array => .refused line (.arrayArithmetic op)
  | .times, .array, _ | .times, _, .array | .over, .array, _ | .over, _, .array =>
    .refused line (.arrayArithmetic op)
  | _, _, _ => if left = right then .typed .integer else mismatch

def voidOperand (op : Operator) (operand : Operand) : List Diagnostic :=
  if operand.type = some .void then [⟨operand.line, .voidOperand op⟩] else []

def operation (line : UInt32) (op : Operator) (left right : Operand) : Verdict :=
  match voidOperand op left ++ voidOperand op right with
  | [] =>
    match left.type, right.type with
    | some leftType, some rightType => operationOn line op left.line leftType rightType
    | _, _ => .untyped
  | reports => ⟨none, reports⟩

/-- An element of a named array. Only the index is looked at. -/
def element (name : String) (index : Option Operand) : Verdict :=
  match index with
  | some ⟨line, some .void⟩ => .refused line (.indexTypeError name .void)
  | some ⟨line, some .array⟩ => .refused line (.indexTypeError name .array)
  | _ => .typed .integer

/-- The first complaint about the arguments of a call, which are paired with the parameters one
position at a time. `complaint` is the one about their numbers. -/
def arguments (callee : String) (complaint : Diagnostic) :
    Nat → List Operand → List ValueType → Option Diagnostic
  | _, [], [] => none
  | position, argument :: rest, expected :: params =>
    match argument.type with
    | none => arguments callee complaint (position + 1) rest params
    | some .void => some ⟨argument.line, .voidArgument callee position⟩
    | some found =>
      if found = expected then arguments callee complaint (position + 1) rest params
      else some ⟨argument.line, .argTypeMismatch callee position expected found⟩
  | _, _, _ => some complaint

/-- A call of a function has the type that the function returns, whatever its arguments are. -/
def call (line : UInt32) (callee : String) (type : ValueType) (params : List ValueType)
    (args : List Operand) : Verdict :=
  let complaint : Diagnostic := ⟨line, .arityMismatch callee params.length args.length⟩
  ⟨some type, (arguments callee complaint 1 args params).toList⟩

def condition (stmt : Statement) (value : Option Operand) : List Diagnostic :=
  match value with
  | some ⟨line, some .void⟩ => [⟨line, .voidCondition stmt⟩]
  | _ => []

/-- Whether a function of type `expected` may return `found`, or nothing. A void value may be
returned where nothing is. -/
def returnable : ValueType → Option ValueType → Bool
  | .void, none => true
  | _, none => false
  | expected, some found => expected = found

/-- A return from a function that is known. A value without a type is not complained about. -/
def ret (line : UInt32) (function : String) (expected : ValueType) (value : Option Operand) :
    List Diagnostic :=
  let complaint (found : Option ValueType) : List Diagnostic :=
    if returnable expected found then []
    else [⟨line, .returnTypeMismatch function expected found⟩]
  match value with
  | none => complaint none
  | some ⟨_, none⟩ => []
  | some ⟨_, some found⟩ => complaint (some found)

end Judgement

end ScopeCheck
