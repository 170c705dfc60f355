import ScopeCheck.Analysis.Judgement
import ScopeCheck.Analysis.State
import ScopeCheck.Tree.Walk

namespace ScopeCheck

/-- The function whose returns are being checked. -/
structure Enclosing where
  name : String
  type : ValueType
  deriving DecidableEq, Repr

structure TypingState where
  base : State
  enclosing : Option Enclosing
  deriving DecidableEq, Repr

namespace Typing

variable (tree : Tree)

def operandOf (facts : NodeFacts) (id : NodeId) (node : Node) : Operand :=
  ⟨node.line, facts.typeOf id⟩

def operand? (facts : NodeFacts) (node : Node) (slot : Slot) : Option Operand := do
  let id ← node.child slot
  return operandOf facts id (← tree.node? id)

def operands (facts : NodeFacts) (node : Node) (slot : Slot) : List Operand :=
  (tree.list node slot).map fun (id, node) => operandOf facts id node

/-- The type of a declaration that takes an argument: a parameter that is not void. -/
def parameterType? (node : Node) : Option ValueType :=
  match node.label with
  | .declaration ⟨.parameter, _, .void, _⟩ => none
  | .declaration ⟨.parameter, _, type, _⟩ => some type
  | _ => none

/-- The types of the arguments that a function takes. -/
def parameters : Origin → List ValueType
  | .builtin params => params
  | .node id =>
    match tree.node? id with
    | none => []
    | some function => (tree.list function 0).filterMap fun item => parameterType? item.2

def resolvedSymbol (state : State) (id : NodeId) : Option Symbol := do
  state.symbols.get? (← state.facts.resolution id)

/-- A name that is not resolved has no type, and neither has a call of what is no function. -/
def judge (state : State) (id : NodeId) (node : Node) : Expression → Verdict
  | .constant _ => .typed .integer
  | .identifier _ => ⟨(resolvedSymbol state id).map (·.type), []⟩
  | .element name =>
    match resolvedSymbol state id with
    | none => .untyped
    | some _ => Judgement.element name (operand? tree state.facts node 0)
  | .call callee =>
    match resolvedSymbol state id with
    | none => .untyped
    | some symbol =>
      if symbol.kind = .function then
        Judgement.call node.line callee symbol.type (parameters tree symbol.origin)
          (operands tree state.facts node 0)
      else .untyped
  | .operation op =>
    match operand? tree state.facts node 0, operand? tree state.facts node 1 with
    | some left, some right => Judgement.operation node.line op left right
    | _, _ => .untyped

def record (state : State) (id : NodeId) (verdict : Verdict) : State :=
  let state := verdict.reports.foldl State.report state
  match verdict.type with
  | none => state
  | some type => { state with facts := state.facts.setType id type }

/-- What is wrong with a statement when it is left. Returns outside of functions are not checked. -/
def statementReports (state : TypingState) (node : Node) : Statement → List Diagnostic
  | .block => []
  | .ret =>
    match state.enclosing with
    | none => []
    | some function =>
      Judgement.ret node.line function.name function.type (operand? tree state.base.facts node 0)
  | stmt => Judgement.condition stmt (operand? tree state.base.facts node 0)

/-- A function makes the scope of its body active. -/
def enterFunction (state : TypingState) (node : Node) (decl : Declaration) :
    Except AnalysisError TypingState :=
  let enclosing := some ⟨decl.name, decl.type⟩
  match node.child 1 with
  | none => .ok { state with enclosing }
  | some body =>
    match state.base.facts.scopeOf body with
    | none => .error (.missingBlockScope node.line)
    | some scope => .ok ⟨(state.base.push scope).expect .reuse, enclosing⟩

def enterBlock (state : TypingState) (id : NodeId) (node : Node) :
    Except AnalysisError TypingState :=
  match state.base.blockEntry with
  | .reuse => .ok { state with base := state.base.expect .fresh }
  | .fresh =>
    match state.base.facts.scopeOf id with
    | none => .error (.missingBlockScope node.line)
    | some scope => .ok { state with base := state.base.push scope }

def enter (state : TypingState) (id : NodeId) (node : Node) : Except AnalysisError TypingState :=
  match node.label with
  | .declaration decl =>
    if decl.kind = .function then enterFunction state node decl else .ok state
  | .statement .block => enterBlock state id node
  | _ => .ok state

def leave (state : TypingState) (id : NodeId) (node : Node) : TypingState :=
  match node.label with
  | .statement .block => { state with base := state.base.pop }
  | .statement stmt =>
    { state with base := (statementReports tree state node stmt).foldl State.report state.base }
  | .expression expr => { state with base := record state.base id (judge tree state.base id node expr) }
  | .declaration decl => if decl.kind = .function then { state with enclosing := none } else state

def step (state : TypingState) : Event → Except AnalysisError TypingState
  | .enter id node => enter state id node
  | .leave id node => .ok (leave tree state id node)

def visitor : Visitor AnalysisError TypingState := fun event state =>
  match step tree state event with
  | .ok state => .ok () state
  | .error error => .error error state

end Typing

/-- Types the expressions of a tree whose names are resolved. -/
def checkTypes (tree : Tree) : Pass := do
  fun state =>
    match tree.walk (Typing.visitor tree) ⟨state, none⟩ with
    | .ok () state => .ok () state.base
    | .error error state => .error error state.base
  Pass.requireBalance

end ScopeCheck
