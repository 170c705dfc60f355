import ScopeCheck.Analysis.Model
import ScopeCheck.Proofs.NodeFacts

namespace ScopeCheck

namespace ActiveScopes

@[simp]
theorem scopes_push (active : ActiveScopes) (scope : ScopeId) :
    (active.push scope).scopes = scope :: active.scopes := rfl

@[simp]
theorem scopes_pop (active : ActiveScopes) : active.pop.scopes = active.scopes.tail := by
  simp [scopes, pop, List.map_tail]

@[simp]
theorem scopes_takeSlot (active : ActiveScopes) : active.takeSlot.scopes = active.scopes := by
  obtain ⟨frames⟩ := active
  cases frames <;> rfl

theorem top_eq_head? (active : ActiveScopes) : active.top = active.scopes.head? := by
  simp [top, scopes]

theorem depth_eq_length (active : ActiveScopes) : active.depth = active.scopes.length := by
  simp [depth, scopes]

end ActiveScopes

namespace State

variable (state : State)

theorem top_eq_head? : state.top = state.active.scopes.head? := state.active.top_eq_head?

@[simp]
theorem report_active (diagnostic : Diagnostic) : (state.report diagnostic).active = state.active :=
  rfl

@[simp]
theorem report_blockEntry (diagnostic : Diagnostic) :
    (state.report diagnostic).blockEntry = state.blockEntry := rfl

@[simp]
theorem addReference_active (node : NodeId) (symbol : SymbolId) (line : UInt32) :
    (state.addReference node symbol line).active = state.active := rfl

@[simp]
theorem addReference_blockEntry (node : NodeId) (symbol : SymbolId) (line : UInt32) :
    (state.addReference node symbol line).blockEntry = state.blockEntry := rfl

@[simp]
theorem bindScope_active (node : NodeId) (scope : ScopeId) :
    (state.bindScope node scope).active = state.active := rfl

@[simp]
theorem bindScope_blockEntry (node : NodeId) (scope : ScopeId) :
    (state.bindScope node scope).blockEntry = state.blockEntry := rfl

@[simp]
theorem expect_active (entry : BlockEntry) : (state.expect entry).active = state.active := rfl

@[simp]
theorem expect_blockEntry (entry : BlockEntry) : (state.expect entry).blockEntry = entry := rfl

@[simp]
theorem openScope_active (kind : ScopeKind) :
    (state.openScope kind).active = state.active.push state.scopes.size := rfl

@[simp]
theorem openScope_blockEntry (kind : ScopeKind) :
    (state.openScope kind).blockEntry = state.blockEntry := rfl

@[simp]
theorem enterFunction_active (name : String) :
    (state.enterFunction name).active = state.active.push state.scopes.size := rfl

@[simp]
theorem enterFunction_blockEntry (name : String) :
    (state.enterFunction name).blockEntry = state.blockEntry := rfl

@[simp]
theorem push_active (scope : ScopeId) : (state.push scope).active = state.active.push scope := rfl

@[simp]
theorem push_blockEntry (scope : ScopeId) : (state.push scope).blockEntry = state.blockEntry := rfl

@[simp]
theorem pop_active : state.pop.active = state.active.pop := by
  simp only [pop]
  split <;> rfl

@[simp]
theorem pop_blockEntry : state.pop.blockEntry = state.blockEntry := by
  simp only [pop]
  split <;> rfl

@[simp]
theorem declare_scopes_active (node : Option NodeId) (definition : Definition) :
    (state.declare node definition).active.scopes = state.active.scopes := by
  simp only [declare]
  split
  · simp
  · rfl

@[simp]
theorem declare_blockEntry (node : Option NodeId) (definition : Definition) :
    (state.declare node definition).blockEntry = state.blockEntry := by
  simp only [declare]
  split <;> rfl

theorem pop_frame : ∃ active function, state.pop = { state with active, function } := by
  simp only [pop]
  split
  · exact ⟨_, _, rfl⟩
  · exact ⟨_, _, rfl⟩

@[simp]
theorem pop_facts : state.pop.facts = state.facts := by
  simp only [pop]
  split <;> rfl

@[simp]
theorem pop_diagnostics : state.pop.diagnostics = state.diagnostics := by
  simp only [pop]
  split <;> rfl

@[simp]
theorem declare_scopes (node : Option NodeId) (definition : Definition) :
    (state.declare node definition).scopes = state.scopes := by
  simp only [declare]
  split <;> rfl

@[simp]
theorem declare_function (node : Option NodeId) (definition : Definition) :
    (state.declare node definition).function = state.function := by
  simp only [declare]
  split <;> rfl

@[simp]
theorem declare_diagnostics (node : Option NodeId) (definition : Definition) :
    (state.declare node definition).diagnostics = state.diagnostics := by
  simp only [declare]
  split <;> rfl

@[simp]
theorem declare_scopeOf (node : Option NodeId) (definition : Definition) (id : NodeId) :
    (state.declare node definition).facts.scopeOf id = state.facts.scopeOf id := by
  simp only [declare]
  split
  · cases node <;> simp
  · rfl

@[simp]
theorem declare_types (node : Option NodeId) (definition : Definition) :
    (state.declare node definition).facts.types = state.facts.types := by
  simp only [declare]
  split
  · cases node <;> rfl
  · rfl

@[simp]
theorem declare_typeOf (node : Option NodeId) (definition : Definition) (id : NodeId) :
    (state.declare node definition).facts.typeOf id = state.facts.typeOf id := by
  simp only [NodeFacts.typeOf, declare_types]

@[simp]
theorem declare_resolution (node : Option NodeId) (definition : Definition) (id : NodeId) :
    (state.declare node definition).facts.resolution id = state.facts.resolution id := by
  simp only [declare]
  split
  · cases node <;> simp
  · rfl

theorem foldl_report (reports : List Diagnostic) :
    reports.foldl report state =
      { state with diagnostics := state.diagnostics ++ reports.toArray } := by
  induction reports generalizing state with
  | nil => simp
  | cons diagnostic reports ih =>
    rw [List.foldl_cons, ih]
    simp [report]

theorem start_active (builtins : Bool) : (start builtins).active.scopes = [global] := by
  cases builtins <;> rfl

theorem start_blockEntry (builtins : Bool) : (start builtins).blockEntry = .fresh := by
  cases builtins <;> rfl

theorem start_facts (builtins : Bool) : (start builtins).facts = .empty := by
  cases builtins <;> rfl

theorem start_diagnostics (builtins : Bool) : (start builtins).diagnostics = #[] := by
  cases builtins <;> rfl

end State

namespace Resolution

variable {state : State} (id : NodeId)

theorem enterBlock_fresh (h : state.blockEntry = .fresh) :
    ∃ facts, enterBlock state id = { state.openScope .block with facts } := by
  simp only [enterBlock, h]
  split
  · exact ⟨_, rfl⟩
  · exact ⟨_, rfl⟩

theorem enterBlock_reuse (h : state.blockEntry = .reuse) :
    ∃ facts, enterBlock state id = { state.expect .fresh with facts } := by
  simp only [enterBlock, h]
  split
  · exact ⟨_, rfl⟩
  · exact ⟨_, rfl⟩

end Resolution

end ScopeCheck
