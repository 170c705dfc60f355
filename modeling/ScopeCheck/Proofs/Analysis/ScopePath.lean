import ScopeCheck.Proofs.Analysis.ActivePath
import ScopeCheck.Proofs.Analysis.Passes
import ScopeCheck.Proofs.Symbol.Names

namespace ScopeCheck

namespace State

/-- The active scopes are the way outward from the innermost one, which is named like the current
function, and the names of the scopes are in order. -/
structure Sound (state : State) : Prop where
  ordered : state.scopes.Ordered
  indexed : state.symbols.Indexed
  lt_size : ∀ top : Nat, state.top = some top → top < state.scopes.size
  path : ∀ top, state.top = some top → state.scopes.ancestors top = state.active.scopes
  current : ∀ top, state.top = some top → state.scopes.name? top = some state.function

namespace Sound

variable {state : State}

theorem of_placed (h : state.Placed) (hindexed : state.symbols.Indexed) : state.Sound where
  ordered := h.ordered
  indexed := hindexed
  lt_size _ htop := h.lt_size_top htop
  path := h.path
  current := h.current

theorem placed (h : state.Sound) : state.Placed where
  lt_size scope hscope := by
    cases htop : state.top with
    | none =>
      rw [state.top_eq_head?, List.head?_eq_none_iff] at htop
      rw [htop] at hscope
      cases hscope
    | some top =>
      rw [← h.path top htop] at hscope
      exact Nat.lt_of_le_of_lt
        (ScopeTable.le_of_mem_ancestors h.ordered (h.lt_size top htop) hscope) (h.lt_size top htop)
  current := h.current
  ordered := h.ordered
  path := h.path

theorem report (h : state.Sound) (diagnostic : Diagnostic) : (state.report diagnostic).Sound :=
  ⟨h.ordered, h.indexed, h.lt_size, h.path, h.current⟩

theorem withFacts (h : state.Sound) (facts : NodeFacts) : ({ state with facts } : State).Sound :=
  ⟨h.ordered, h.indexed, h.lt_size, h.path, h.current⟩

theorem expect (h : state.Sound) (entry : BlockEntry) : (state.expect entry).Sound :=
  ⟨h.ordered, h.indexed, h.lt_size, h.path, h.current⟩

theorem addReference (h : state.Sound) (node : NodeId) (symbol : SymbolId) (line : UInt32) :
    (state.addReference node symbol line).Sound :=
  ⟨h.ordered, SymbolTable.indexed_addReference h.indexed, h.lt_size, h.path, h.current⟩

theorem openNamed (h : state.Sound) (name : String) (kind : ScopeKind) :
    (({ state with function := name } : State).openScope kind).Sound :=
  of_placed (h.placed.openNamed name kind) h.indexed

theorem openScope (h : state.Sound) (kind : ScopeKind) : (state.openScope kind).Sound :=
  h.openNamed state.function kind

theorem enterFunction (h : state.Sound) (name : String) : (state.enterFunction name).Sound :=
  h.openNamed name .function

theorem pop (h : state.Sound) : state.pop.Sound := by
  obtain ⟨active, function, hpop⟩ := state.pop_frame
  have hsymbols : state.pop.symbols = state.symbols := by rw [hpop]
  exact of_placed h.placed.pop (hsymbols ▸ h.indexed)

theorem lookupLocal_eq (h : state.Sound) {top : ScopeId} (htop : state.top = some top)
    (name : String) : state.lookupLocal state.function name = state.symbols.lookupLocal name top :=
  h.placed.lookupLocal_eq htop name

theorem nodup_scopes (h : state.Sound) : state.active.scopes.Nodup :=
  h.placed.nodup_scopes

theorem lookup_eq (h : state.Sound) (name : String) :
    state.lookup name = state.active.scopes.findSome? (state.symbols.lookupLocal name) :=
  h.placed.lookup_eq name

/-- A name means what the first active scope has that has it at all. -/
theorem lookup_eq_some_iff (h : state.Sound) {name : String} {id : SymbolId} :
    state.lookup name = some id ↔
      ∃ inner scope outer, state.active.scopes = inner ++ scope :: outer ∧
        state.symbols.Has name scope id ∧
          ∀ other ∈ inner, ∀ found, ¬ state.symbols.Has name other found := by
  simp only [h.lookup_eq, List.findSome?_eq_some_iff, Option.eq_none_iff_forall_ne_some, ne_eq,
    h.indexed name _ _]

theorem lookup_eq_none_iff (h : state.Sound) {name : String} :
    state.lookup name = none ↔
      ∀ scope ∈ state.active.scopes, ∀ found, ¬ state.symbols.Has name scope found := by
  rw [h.lookup_eq, List.findSome?_eq_none_iff]
  simp only [Option.eq_none_iff_forall_ne_some, ne_eq, h.indexed name _ _]

theorem declare (h : state.Sound) (node : Option NodeId) {definition : Definition}
    (hnew : state.lookupLocal state.function definition.name = none) :
    (state.declare node definition).Sound := by
  refine of_placed (h.placed.of_same (by simp) (by simp) (by simp)) ?_
  simp only [State.declare]
  split
  · rename_i top slot htop hslot
    rw [h.lookupLocal_eq htop] at hnew
    exact SymbolTable.indexed_declare h.indexed hnew
  · exact h.indexed

end Sound

theorem sound_start (builtins : Bool) : (start builtins).Sound := by
  have hinitial : initial.Sound := .of_placed placed_initial SymbolTable.indexed_empty
  cases builtins with
  | false => exact hinitial
  | true => exact (hinitial.declare none rfl).declare none rfl

end State

namespace Resolution

variable {state : State} {id : NodeId} {node : Node}

theorem sound_declareUnique (h : state.Sound) (line : UInt32) (decl : Declaration) :
    (declareUnique state id line decl).Sound := by
  simp only [declareUnique]
  split
  · exact h.report _
  · rename_i hnew
    exact h.declare _ hnew

theorem sound_step (h : state.Sound) (event : Event) : (step state event).Sound := by
  cases event with
  | enter id node =>
    simp only [step, enter]
    split
    · simp only [enterDeclaration]
      split
      · exact ((sound_declareUnique h _ _).enterFunction _).expect _
      · exact h
      · exact sound_declareUnique h _ _
    · cases hentry : state.blockEntry with
      | fresh =>
        obtain ⟨facts, hblock⟩ := enterBlock_fresh id hentry
        rw [hblock]
        exact (h.openScope .block).withFacts facts
      | reuse =>
        obtain ⟨facts, hblock⟩ := enterBlock_reuse id hentry
        rw [hblock]
        exact (h.expect .fresh).withFacts facts
    · exact h
    · split
      · exact h
      · simp only [resolve]
        split
        · exact h.addReference _ _ _
        · exact h.report _
  | leave id node =>
    simp only [step, leave]
    split
    · exact h.pop
    · simp only [leaveFunction]
      split
      · exact (h.expect .fresh).pop
      · exact h
    · exact h

theorem sound_run (h : state.Sound) (events : List Event) : (run state events).Sound := by
  induction events generalizing state with
  | nil => exact h
  | cons event events ih => exact ih (sound_step h event)

end Resolution

end ScopeCheck
