import ScopeCheck.Diagnostic.Basic
import ScopeCheck.NodeFacts
import ScopeCheck.Scope.Active

namespace ScopeCheck

/-- What the next block to be entered does: open a scope of its own, or take the scope of the
function it is the body of, which is active already. -/
inductive BlockEntry where
  | fresh
  | reuse
  deriving DecidableEq, Repr, Inhabited

structure State where
  scopes : ScopeTable
  symbols : SymbolTable
  facts : NodeFacts
  diagnostics : Array Diagnostic
  active : ActiveScopes
  function : String
  blockEntry : BlockEntry
  deriving DecidableEq, Repr, Inhabited

namespace State

def global : ScopeId := 0

/-- The global scope is there and active; nothing is declared. -/
def initial : State where
  scopes := ScopeTable.empty.create .global Scope.globalName none
  symbols := .empty
  facts := .empty
  diagnostics := #[]
  active := ActiveScopes.empty.push global
  function := Scope.globalName
  blockEntry := .fresh

def depth (state : State) : Nat := state.active.depth

def top (state : State) : Option ScopeId := state.active.top

/-- Opens a scope inside the innermost one, named after the current function. -/
def openScope (state : State) (kind : ScopeKind) : State :=
  { state with
    scopes := state.scopes.create kind state.function state.top
    active := state.active.push state.scopes.size }

/-- Opens the scope of a function, which becomes the current one. -/
def enterFunction (state : State) (name : String) : State :=
  { state with function := name }.openScope .function

/-- The name of a scope; the current function's where there is no such scope. -/
def scopeName (state : State) (scope : ScopeId) : String :=
  ((state.scopes.get? scope).map Scope.name).getD state.function

def push (state : State) (scope : ScopeId) : State :=
  { state with active := state.active.push scope, function := state.scopeName scope }

/-- Leaves the innermost scope. Where no scope is left the current function stays. -/
def pop (state : State) : State :=
  let active := state.active.pop
  match active.top with
  | none => { state with active }
  | some scope => { state with active, function := state.scopeName scope }

def lookup (state : State) (name : String) : Option SymbolId := do
  state.symbols.lookup state.scopes name (← state.top)

/-- The symbol that the innermost scope itself has under a name, if the scope is named
`scopeName`. -/
def lookupLocal (state : State) (scopeName name : String) : Option SymbolId := do
  let top ← state.top
  if ((state.scopes.get? top).map Scope.name) = some scopeName then
    state.symbols.lookupLocal name top
  else none

/-- Declares a symbol in the innermost scope, at the next slot, and records it for its node. -/
def declare (state : State) (node : Option NodeId) (definition : Definition) : State :=
  match state.active.top, state.active.nextSlot with
  | some scope, some slot =>
    { state with
      symbols := state.symbols.declare scope slot definition
      active := state.active.takeSlot
      facts := match node with
        | none => state.facts
        | some node => state.facts.recordDeclaration node state.symbols.size }
  | _, _ => state

def addReference (state : State) (node : NodeId) (symbol : SymbolId) (line : UInt32) : State :=
  { state with
    symbols := state.symbols.addReference symbol line
    facts := state.facts.resolve node symbol }

def report (state : State) (diagnostic : Diagnostic) : State :=
  { state with diagnostics := state.diagnostics.push diagnostic }

def bindScope (state : State) (node : NodeId) (scope : ScopeId) : State :=
  { state with facts := state.facts.bindScope node scope }

/-- Settles what the next block does. -/
def expect (state : State) (entry : BlockEntry) : State := { state with blockEntry := entry }

end State

inductive AnalysisError where
  | missingBlockScope (line : UInt32)
  | unbalancedScopes (depth : Nat)
  deriving DecidableEq, Repr, Inhabited

namespace AnalysisError

def message : AnalysisError → String
  | missingBlockScope line =>
    "compound block at line " ++ toString line.toNat ++ " has no scope recorded by the binder"
  | unbalancedScopes depth =>
    "scope stack ended at depth " ++ toString depth ++ " instead of the global scope"

end AnalysisError

/-- A step of an analysis. Where it fails, the state is as the step left it. -/
abbrev Pass := EStateM AnalysisError State Unit

namespace Pass

/-- A pass ends well only if just the global scope is left active. -/
def requireBalance : Pass := fun state =>
  if state.depth = 1 then .ok () state else .error (.unbalancedScopes state.depth) state

end Pass

end ScopeCheck
