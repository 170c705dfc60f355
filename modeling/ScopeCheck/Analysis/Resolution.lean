import ScopeCheck.Analysis.State
import ScopeCheck.Tree.Walk

namespace ScopeCheck

namespace Resolution

/-- Declares a name, unless the innermost scope has it already. -/
def declareUnique (state : State) (id : NodeId) (line : UInt32) (decl : Declaration) : State :=
  match state.lookupLocal state.function decl.name with
  | some _ => state.report ⟨line, .duplicateDeclaration decl.name⟩
  | none => state.declare (some id) ⟨decl.name, decl.kind, decl.type, line, .node id⟩

/-- A function is declared in the scope around its own. A void parameter spells the empty list of
parameters and declares nothing. -/
def enterDeclaration (state : State) (id : NodeId) (line : UInt32) (decl : Declaration) : State :=
  match decl.kind, decl.type with
  | .function, _ =>
    ((declareUnique state id line decl).enterFunction decl.name).expect .reuse
  | .parameter, .void => state
  | _, _ => declareUnique state id line decl

def enterBlock (state : State) (id : NodeId) : State :=
  let state := match state.blockEntry with
    | .reuse => state.expect .fresh
    | .fresh => state.openScope .block
  match state.top with
  | none => state
  | some scope => state.bindScope id scope

def resolve (state : State) (id : NodeId) (line : UInt32) (name : String) : State :=
  match state.lookup name with
  | some symbol => state.addReference id symbol line
  | none => state.report ⟨line, .undeclaredIdentifier name⟩

def enter (state : State) (id : NodeId) (node : Node) : State :=
  match node.label with
  | .declaration decl => enterDeclaration state id node.line decl
  | .statement .block => enterBlock state id
  | .statement _ => state
  | .expression expr =>
    match expr.name? with
    | none => state
    | some name => resolve state id node.line name

/-- A function whose scope no block has taken leaves it itself. -/
def leaveFunction (state : State) : State :=
  match state.blockEntry with
  | .reuse => (state.expect .fresh).pop
  | .fresh => state

def leave (state : State) (node : Node) : State :=
  match node.label with
  | .statement .block => state.pop
  | .declaration ⟨.function, _, _, _⟩ => leaveFunction state
  | _ => state

def step (state : State) : Event → State
  | .enter id node => enter state id node
  | .leave _ node => leave state node

end Resolution

def resolveNames (tree : Tree) : Pass := do
  tree.walk fun event => modify (Resolution.step · event)
  Pass.requireBalance

end ScopeCheck
