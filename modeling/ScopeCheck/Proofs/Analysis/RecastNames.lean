import ScopeCheck.Proofs.Analysis.Passes
import ScopeCheck.Proofs.Analysis.State
import ScopeCheck.Proofs.Tree.Recast

namespace ScopeCheck

section Lines

variable (f : UInt32 → UInt32)

/-- A builtin stands in no line, so it keeps its own. -/
def Definition.mapLine (definition : Definition) : Definition :=
  { definition with
    line := match definition.origin with
      | .node _ => f definition.line
      | .builtin _ => definition.line }

def Symbol.mapLines (symbol : Symbol) : Symbol :=
  { symbol with
    toDefinition := symbol.toDefinition.mapLine f
    references := symbol.references.map f }

def SymbolTable.mapLines (table : SymbolTable) : SymbolTable :=
  { table with symbols := table.symbols.map (Symbol.mapLines f) }

def Diagnostic.mapLine (diagnostic : Diagnostic) : Diagnostic :=
  { diagnostic with line := f diagnostic.line }

end Lines

def Origin.mapNode (f : NodeId → NodeId) : Origin → Origin
  | .node id => .node (f id)
  | .builtin params => .builtin params

namespace Recast

variable (cast : Recast)

def onDefinition (definition : Definition) : Definition :=
  { definition.mapLine cast.line with origin := definition.origin.mapNode cast.place }

def onSymbol (symbol : Symbol) : Symbol :=
  { symbol.mapLines cast.line with origin := symbol.origin.mapNode cast.place }

def onSymbols (table : SymbolTable) : SymbolTable := ⟨table.symbols.map cast.onSymbol, table.names⟩

/-- What is known of a node is known of the node that it has become. Where all nodes keep their
places the tables are the same. -/
structure MovesFacts (facts other : NodeFacts) : Prop where
  typeOf : ∀ id, other.typeOf (cast.place id) = facts.typeOf id
  scopeOf : ∀ id, other.scopeOf (cast.place id) = facts.scopeOf id
  resolution : ∀ id, other.resolution (cast.place id) = facts.resolution id
  declared : ∀ id, other.declared (cast.place id) = facts.declared id
  eq_of_place : (∀ id, cast.place id = id) → other = facts

/-- The states of both runs correspond. -/
structure Relates (state other : State) : Prop where
  scopes : other.scopes = state.scopes
  symbols : other.symbols = cast.onSymbols state.symbols
  facts : cast.MovesFacts state.facts other.facts
  diagnostics : other.diagnostics = state.diagnostics.map (Diagnostic.mapLine cast.line)
  active : other.active = state.active
  function : other.function = state.function
  blockEntry : other.blockEntry = state.blockEntry

variable {cast}

theorem size_onSymbols (table : SymbolTable) : (cast.onSymbols table).size = table.size := by
  simp [onSymbols, SymbolTable.size]

theorem get?_onSymbols (table : SymbolTable) (id : SymbolId) :
    (cast.onSymbols table).get? id = (table.get? id).map cast.onSymbol := by
  simp [onSymbols, SymbolTable.get?]

theorem onSymbols_declare (table : SymbolTable) (scope : ScopeId) (slot : UInt32)
    (definition : Definition) :
    cast.onSymbols (table.declare scope slot definition) =
      (cast.onSymbols table).declare scope slot (cast.onDefinition definition) := by
  simp [onSymbols, SymbolTable.declare, SymbolTable.size, SymbolTable.namesOf, onSymbol,
    onDefinition, Symbol.mapLines, Definition.mapLine]

theorem onSymbols_addReference (table : SymbolTable) (id : SymbolId) (line : UInt32) :
    cast.onSymbols (table.addReference id line) =
      (cast.onSymbols table).addReference id (cast.line line) := by
  simp only [onSymbols, SymbolTable.addReference, SymbolTable.mk.injEq, and_true]
  apply Array.ext_getElem?
  intro other
  simp only [Array.getElem?_map, Array.getElem?_modify]
  split
  · rw [Option.map_map, Option.map_map]
    congr 1
    funext symbol
    simp [onSymbol, Symbol.mapLines, Definition.mapLine, Array.map_push]
  · rfl

namespace MovesFacts

variable {facts other : NodeFacts} (h : cast.MovesFacts facts other)

include h

theorem setType (id : NodeId) (type : ValueType) :
    cast.MovesFacts (facts.setType id type) (other.setType (cast.place id) type) where
  typeOf node := by
    rw [NodeFacts.typeOf_setType, NodeFacts.typeOf_setType, h.typeOf]
    simp only [cast.injective.eq_iff]
  scopeOf := h.scopeOf
  resolution := h.resolution
  declared := h.declared
  eq_of_place hplace := by rw [h.eq_of_place hplace, hplace]

theorem bindScope (id : NodeId) (scope : ScopeId) :
    cast.MovesFacts (facts.bindScope id scope) (other.bindScope (cast.place id) scope) where
  typeOf node := by simp only [NodeFacts.typeOf_bindScope, h.typeOf]
  scopeOf node := by
    simp only [NodeFacts.scopeOf_bindScope, h.scopeOf, cast.injective.eq_iff]
  resolution node := by simp only [NodeFacts.resolution_bindScope, h.resolution]
  declared node := by simp only [NodeFacts.declared_bindScope, h.declared]
  eq_of_place hplace := by rw [h.eq_of_place hplace, hplace]

theorem resolve (id : NodeId) (symbol : SymbolId) :
    cast.MovesFacts (facts.resolve id symbol) (other.resolve (cast.place id) symbol) where
  typeOf := h.typeOf
  scopeOf := h.scopeOf
  resolution node := by
    simp only [NodeFacts.resolution_resolve, h.resolution, cast.injective.eq_iff]
  declared := h.declared
  eq_of_place hplace := by rw [h.eq_of_place hplace, hplace]

theorem recordDeclaration (id : NodeId) (symbol : SymbolId) :
    cast.MovesFacts (facts.recordDeclaration id symbol)
      (other.recordDeclaration (cast.place id) symbol) where
  typeOf := h.typeOf
  scopeOf := h.scopeOf
  resolution := h.resolution
  declared node := by
    simp only [NodeFacts.declared_recordDeclaration, h.declared, cast.injective.eq_iff]
  eq_of_place hplace := by rw [h.eq_of_place hplace, hplace]

end MovesFacts

namespace Relates

variable {state other : State} (h : cast.Relates state other)

include h

theorem top_eq : other.top = state.top := by
  rw [State.top, State.top, h.active]

theorem lookup_eq (name : String) : other.lookup name = state.lookup name := by
  rw [State.lookup, State.lookup, h.top_eq, h.scopes, h.symbols]
  rfl

theorem lookupLocal_eq (name : String) :
    other.lookupLocal other.function name = state.lookupLocal state.function name := by
  rw [State.lookupLocal, State.lookupLocal, h.top_eq, h.scopes, h.symbols, h.function]
  rfl

theorem scopeName_eq (scope : ScopeId) : other.scopeName scope = state.scopeName scope := by
  rw [State.scopeName, State.scopeName, h.scopes, h.function]

theorem report (line : UInt32) (fault : Fault) :
    cast.Relates (state.report ⟨line, fault⟩) (other.report ⟨cast.line line, fault⟩) where
  scopes := h.scopes
  symbols := h.symbols
  facts := h.facts
  diagnostics := by
    rw [State.report, State.report, h.diagnostics, Array.map_push]
    rfl
  active := h.active
  function := h.function
  blockEntry := h.blockEntry

theorem expect (entry : BlockEntry) : cast.Relates (state.expect entry) (other.expect entry) :=
  ⟨h.scopes, h.symbols, h.facts, h.diagnostics, h.active, h.function, rfl⟩

theorem addReference (id : NodeId) (symbol : SymbolId) (line : UInt32) :
    cast.Relates (state.addReference id symbol line)
      (other.addReference (cast.place id) symbol (cast.line line)) where
  scopes := h.scopes
  symbols := by
    rw [State.addReference, State.addReference, h.symbols, onSymbols_addReference]
  facts := h.facts.resolve id symbol
  diagnostics := h.diagnostics
  active := h.active
  function := h.function
  blockEntry := h.blockEntry

theorem bindScope (id : NodeId) (scope : ScopeId) :
    cast.Relates (state.bindScope id scope) (other.bindScope (cast.place id) scope) :=
  ⟨h.scopes, h.symbols, h.facts.bindScope id scope, h.diagnostics, h.active, h.function, h.blockEntry⟩

theorem openScope (kind : ScopeKind) :
    cast.Relates (state.openScope kind) (other.openScope kind) where
  scopes := by
    rw [State.openScope, State.openScope, h.scopes, h.function, h.top_eq]
  symbols := h.symbols
  facts := h.facts
  diagnostics := h.diagnostics
  active := by
    rw [State.openScope_active, State.openScope_active, h.active, h.scopes]
  function := h.function
  blockEntry := h.blockEntry

theorem enterFunction (name : String) :
    cast.Relates (state.enterFunction name) (other.enterFunction name) := by
  have hnamed : cast.Relates { state with function := name } { other with function := name } :=
    ⟨h.scopes, h.symbols, h.facts, h.diagnostics, h.active, rfl, h.blockEntry⟩
  exact hnamed.openScope .function

theorem push (scope : ScopeId) : cast.Relates (state.push scope) (other.push scope) where
  scopes := h.scopes
  symbols := h.symbols
  facts := h.facts
  diagnostics := h.diagnostics
  active := by rw [State.push_active, State.push_active, h.active]
  function := h.scopeName_eq scope
  blockEntry := h.blockEntry

theorem pop : cast.Relates state.pop other.pop := by
  rw [State.pop, State.pop, h.active]
  cases state.active.pop.top with
  | none => exact ⟨h.scopes, h.symbols, h.facts, h.diagnostics, rfl, h.function, h.blockEntry⟩
  | some scope =>
    exact ⟨h.scopes, h.symbols, h.facts, h.diagnostics, rfl, h.scopeName_eq scope, h.blockEntry⟩

theorem declare (node : Option NodeId) (definition : Definition) :
    cast.Relates (state.declare node definition)
      (other.declare (node.map cast.place) (cast.onDefinition definition)) := by
  simp only [State.declare, h.active]
  split
  · refine ⟨h.scopes, ?_, ?_, h.diagnostics, rfl, h.function, h.blockEntry⟩
    · simp only [h.symbols, onSymbols_declare]
    · simp only [h.symbols, size_onSymbols]
      cases node with
      | none => exact h.facts
      | some id => exact h.facts.recordDeclaration id state.symbols.size
  · exact h

theorem declareBuiltins : cast.Relates state.declareBuiltins other.declareBuiltins :=
  (h.declare none (Builtin.definition ⟨"input", .integer, []⟩)).declare none
    (Builtin.definition ⟨"output", .void, [.integer]⟩)

theorem declareUnique (id : NodeId) (line : UInt32) (decl : Declaration) (size : Option UInt32) :
    cast.Relates (Resolution.declareUnique state id line decl)
      (Resolution.declareUnique other (cast.place id) (cast.line line) { decl with size }) := by
  simp only [Resolution.declareUnique, h.lookupLocal_eq]
  cases state.lookupLocal state.function decl.name with
  | some symbol => exact h.report line _
  | none => exact h.declare (some id) ⟨decl.name, decl.kind, decl.type, line, .node id⟩

theorem enterDeclaration (id : NodeId) (line : UInt32) (decl : Declaration) (size : Option UInt32) :
    cast.Relates (Resolution.enterDeclaration state id line decl)
      (Resolution.enterDeclaration other (cast.place id) (cast.line line) { decl with size }) := by
  have hunique := h.declareUnique id line decl size
  simp only [Resolution.enterDeclaration]
  split
  · exact (hunique.enterFunction decl.name).expect .reuse
  · exact h
  · exact hunique

theorem enterBlock (id : NodeId) :
    cast.Relates (Resolution.enterBlock state id) (Resolution.enterBlock other (cast.place id)) := by
  simp only [Resolution.enterBlock, h.blockEntry]
  cases state.blockEntry with
  | reuse =>
    have hsettled := h.expect .fresh
    rw [hsettled.top_eq]
    cases (state.expect .fresh).top with
    | none => exact hsettled
    | some scope => exact hsettled.bindScope id scope
  | fresh =>
    have hopened := h.openScope .block
    rw [hopened.top_eq]
    cases (state.openScope .block).top with
    | none => exact hopened
    | some scope => exact hopened.bindScope id scope

theorem resolve (id : NodeId) (line : UInt32) (name : String) :
    cast.Relates (Resolution.resolve state id line name)
      (Resolution.resolve other (cast.place id) (cast.line line) name) := by
  simp only [Resolution.resolve, h.lookup_eq]
  cases state.lookup name with
  | none => exact h.report line _
  | some symbol => exact h.addReference id symbol line

theorem leaveFunction :
    cast.Relates (Resolution.leaveFunction state) (Resolution.leaveFunction other) := by
  simp only [Resolution.leaveFunction, h.blockEntry]
  cases state.blockEntry with
  | reuse => exact (h.expect .fresh).pop
  | fresh => exact h

theorem step (event : Event) :
    cast.Relates (Resolution.step state event) (Resolution.step other (cast.onEvent event)) := by
  cases event with
  | enter id node =>
    obtain ⟨label, line, children, sibling⟩ := node
    cases label with
    | statement stmt =>
      cases stmt with
      | block => exact h.enterBlock id
      | ifThen | whileDo | ret => exact h
    | declaration decl => exact h.enterDeclaration id line decl _
    | expression expr =>
      cases expr with
      | operation op => exact h
      | constant value => exact h
      | identifier name | element name | call name => exact h.resolve id line name
  | leave id node =>
    obtain ⟨label, line, children, sibling⟩ := node
    cases label with
    | statement stmt =>
      cases stmt with
      | block => exact h.pop
      | ifThen | whileDo | ret => exact h
    | expression expr => cases expr <;> exact h
    | declaration decl =>
      obtain ⟨kind, name, type, size⟩ := decl
      cases kind with
      | function => exact h.leaveFunction
      | «variable» | parameter => exact h

end Relates

theorem relates_run {state other : State} (h : cast.Relates state other) (events : List Event) :
    cast.Relates (Resolution.run state events) (Resolution.run other (events.map cast.onEvent)) := by
  induction events generalizing state other with
  | nil => exact h
  | cons event events ih => exact ih (h.step event)

theorem relates_start (builtins : Bool) : cast.Relates (.start builtins) (.start builtins) := by
  have hinitial : cast.Relates .initial .initial :=
    ⟨rfl, by simp [State.initial, SymbolTable.empty, onSymbols],
      ⟨fun _ => rfl, fun _ => rfl, fun _ => rfl, fun _ => rfl, fun _ => rfl⟩, by simp [State.initial], rfl, rfl, rfl⟩
  cases builtins with
  | false => exact hinitial
  | true => exact hinitial.declareBuiltins

end Recast

end ScopeCheck
