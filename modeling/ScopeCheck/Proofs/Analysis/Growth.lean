import ScopeCheck.Proofs.Analysis.BlockScopes
import ScopeCheck.Proofs.Analysis.ScopePath

namespace ScopeCheck

theorem SymbolTable.Extends.has {table later : SymbolTable} (h : table.Extends later)
    {name : String} {scope : ScopeId} {id : SymbolId} (hhas : table.Has name scope id) :
    later.Has name scope id := by
  obtain ⟨symbol, hsymbol, rfl, rfl⟩ := hhas
  obtain ⟨newer, hnewer, hdefinition, hscope⟩ := h id symbol hsymbol
  exact ⟨newer, hnewer, congrArg Definition.name hdefinition, hscope⟩

theorem SymbolTable.Extends.exists_older {table later : SymbolTable} (h : table.Extends later)
    {id : SymbolId} {symbol : Symbol} (hsymbol : later.get? id = some symbol)
    (hlt : id < table.size) :
    ∃ older, table.get? id = some older ∧ symbol.toDefinition = older.toDefinition ∧
      symbol.scope = older.scope := by
  have holder : table.get? id = some table.symbols[id] := Array.getElem?_eq_getElem hlt
  obtain ⟨newer, hnewer, hdefinition, hscope⟩ := h id _ holder
  obtain rfl : newer = symbol := Option.some.inj (hnewer.symm.trans hsymbol)
  exact ⟨_, holder, hdefinition, hscope⟩

namespace Resolution

/-- A symbol comes from a declaration among the events, and was declared in the scope that was the
innermost one then. -/
def Born (state : State) (events : List Event) (symbol : Symbol) : Prop :=
  ∃ earlier id node decl, earlier ++ [.enter id node] <+: events ∧
    node.label = .declaration decl ∧ symbol.origin = .node id ∧
      (run state earlier).top = some symbol.scope

theorem Born.exists_enter {state : State} {events : List Event} {symbol : Symbol}
    (h : Born state events symbol) :
    ∃ id node, symbol.origin = .node id ∧ .enter id node ∈ events := by
  obtain ⟨earlier, id, node, decl, hearlier, -, horigin, -⟩ := h
  exact ⟨id, node, horigin, hearlier.subset (by simp)⟩

theorem Born.append_right {state : State} {events : List Event} {symbol : Symbol}
    (h : Born state events symbol) (more : List Event) : Born state (events ++ more) symbol := by
  obtain ⟨earlier, id, node, decl, hearlier, hborn⟩ := h
  exact ⟨earlier, id, node, decl, hearlier.trans (List.prefix_append events more), hborn⟩

theorem Born.append_left {state : State} {events more : List Event} {symbol : Symbol}
    (h : Born (run state events) more symbol) : Born state (events ++ more) symbol := by
  obtain ⟨earlier, id, node, decl, hearlier, hlabel, horigin, htop⟩ := h
  refine ⟨events ++ earlier, id, node, decl, ?_, hlabel, horigin, ?_⟩
  · rw [List.append_assoc]
    exact (List.prefix_append_right_inj events).mpr hearlier
  · rw [run_append]
    exact htop

theorem Born.of_definition_eq {state : State} {events : List Event} {symbol newer : Symbol}
    (h : Born state events symbol) (hdefinition : newer.toDefinition = symbol.toDefinition)
    (hscope : newer.scope = symbol.scope) : Born state events newer := by
  rw [Born, hdefinition, hscope]
  exact h

/-- The tables have grown by what some events add. -/
structure Grows (state later : State) (events : List Event) : Prop where
  scopes : state.scopes.Extends later.scopes
  symbols : state.symbols.Extends later.symbols
  added : ∀ id symbol, later.symbols.get? id = some symbol →
    id < state.symbols.size ∨ Born state events symbol

namespace Grows

variable {state later : State} {events : List Event}

theorem of_eq (hscopes : later.scopes = state.scopes) (hsymbols : later.symbols = state.symbols) :
    Grows state later events where
  scopes := hscopes ▸ .refl _
  symbols := hsymbols ▸ .refl _
  added _ _ hsymbol := .inl (SymbolTable.get?_lt_size (hsymbols ▸ hsymbol))

theorem trans {last : State} {more : List Event} (h : Grows state (run state events) events)
    (h' : Grows (run state events) last more) : Grows state last (events ++ more) where
  scopes := h.scopes.trans h'.scopes
  symbols := h.symbols.trans h'.symbols
  added id symbol hsymbol := by
    rcases h'.added id symbol hsymbol with hlt | hborn
    · obtain ⟨older, holder, hdefinition, hscope⟩ := h'.symbols.exists_older hsymbol hlt
      rcases h.added id older holder with hlt | hborn
      · exact .inl hlt
      · exact .inr ((hborn.of_definition_eq hdefinition hscope).append_right more)
    · exact .inr hborn.append_left

end Grows

/-- The way outward from a scope is what was active when the scope was the innermost one. -/
theorem Grows.ancestors_top {state later : State} {events : List Event}
    (h : Grows state later events) (hstate : state.Sound) (hlater : later.Sound) {scope : ScopeId}
    (htop : state.top = some scope) : later.scopes.ancestors scope = state.active.scopes := by
  rw [← hstate.path scope htop]
  exact h.scopes.ancestors_eq hstate.ordered hlater.ordered (hstate.lt_size scope htop)

variable {state : State} {id : NodeId} {node : Node}

theorem grows_declareUnique {decl : Declaration} (hlabel : node.label = .declaration decl)
    (line : UInt32) : Grows state (declareUnique state id line decl) [.enter id node] := by
  simp only [declareUnique]
  split
  · exact .of_eq rfl rfl
  · simp only [State.declare]
    split
    · rename_i scope _ htop _
      refine ⟨.refl _, SymbolTable.extends_declare, fun other symbol hsymbol => ?_⟩
      rw [SymbolTable.get?_declare] at hsymbol
      split at hsymbol
      · cases hsymbol
        exact .inr ⟨[], id, node, decl, List.prefix_refl _, hlabel, rfl, htop⟩
      · exact .inl (SymbolTable.get?_lt_size hsymbol)
    · exact .of_eq rfl rfl

theorem grows_pop (events : List Event) : Grows state state.pop events := by
  obtain ⟨active, function, hpop⟩ := state.pop_frame
  exact .of_eq (by rw [hpop]) (by rw [hpop])

theorem grows_enterDeclaration {decl : Declaration} (hlabel : node.label = .declaration decl)
    (line : UInt32) : Grows state (enterDeclaration state id line decl) [.enter id node] := by
  have hunique : Grows state (declareUnique state id line decl) [.enter id node] :=
    grows_declareUnique hlabel line
  simp only [enterDeclaration]
  split
  · exact ⟨hunique.scopes.trans ScopeTable.extends_create, hunique.symbols, hunique.added⟩
  · exact .of_eq rfl rfl
  · exact hunique

theorem grows_enterBlock (events : List Event) : Grows state (enterBlock state id) events := by
  cases hentry : state.blockEntry with
  | fresh =>
    obtain ⟨facts, hblock⟩ := enterBlock_fresh id hentry
    rw [hblock]
    exact ⟨ScopeTable.extends_create, .refl _,
      fun _ _ hsymbol => .inl (SymbolTable.get?_lt_size hsymbol)⟩
  | reuse =>
    obtain ⟨facts, hblock⟩ := enterBlock_reuse id hentry
    rw [hblock]
    exact .of_eq rfl rfl

theorem grows_step (event : Event) : Grows state (step state event) [event] := by
  cases event with
  | enter id node =>
    simp only [step, enter]
    split
    · rename_i hlabel
      exact grows_enterDeclaration hlabel _
    · exact grows_enterBlock _
    · exact .of_eq rfl rfl
    · split
      · exact .of_eq rfl rfl
      · simp only [resolve]
        split
        · refine ⟨.refl _, SymbolTable.extends_addReference, fun other symbol hsymbol => .inl ?_⟩
          have hlt := SymbolTable.get?_lt_size hsymbol
          rwa [State.addReference, SymbolTable.size_addReference] at hlt
        · exact .of_eq rfl rfl
  | leave id node =>
    simp only [step, leave]
    split
    · exact grows_pop _
    · simp only [leaveFunction]
      split
      · obtain ⟨active, function, hpop⟩ := (state.expect .fresh).pop_frame
        exact .of_eq (by rw [hpop]; rfl) (by rw [hpop]; rfl)
      · exact .of_eq rfl rfl
    · exact .of_eq rfl rfl

theorem grows_run (events : List Event) : Grows state (run state events) events := by
  induction events generalizing state with
  | nil => exact .of_eq rfl rfl
  | cons event events ih =>
    have hstep : Grows state (run state [event]) [event] := grows_step event
    exact hstep.trans ih

/-- What is there at some time of a walk is there at its end. -/
theorem grows_rest {events before after : List Event} (h : events = before ++ after) :
    Grows (run state before) (run state events) after := by
  rw [h, run_append]
  exact grows_run after

/-- The current function is named in the table of scopes, so it comes back with the scopes. -/
theorem function_run_of_scopes (hsound : state.Sound) {events : List Event}
    (hscopes : (run state events).active.scopes = state.active.scopes)
    (hne : state.active.scopes ≠ []) : (run state events).function = state.function := by
  obtain ⟨top, rest, hstate⟩ := List.exists_cons_of_ne_nil hne
  have htop : state.top = some top := by rw [State.top_eq_head?, hstate, List.head?_cons]
  have htop' : (run state events).top = some top := by
    rw [State.top_eq_head?, hscopes, hstate, List.head?_cons]
  have hname := (grows_run events).scopes.name?_eq top (hsound.lt_size top htop)
  rw [(sound_run hsound events).current top htop', hsound.current top htop] at hname
  exact Option.some.inj hname

theorem mem_scopes_enterDeclaration (line : UInt32) (decl : Declaration) {scope : Nat}
    (h : scope ∈ (enterDeclaration state id line decl).active.scopes) :
    scope ∈ state.active.scopes ∨ state.scopes.size ≤ scope := by
  simp only [enterDeclaration] at h
  split at h
  · have hgrows : Grows state (declareUnique state id line decl)
        [.enter id (.leaf (.declaration decl) line)] := grows_declareUnique rfl line
    simp only [State.expect_active, State.enterFunction_active, ActiveScopes.scopes_push,
      declareUnique_scopes_active, List.mem_cons] at h
    rcases h with rfl | h
    · exact .inr hgrows.scopes.size_le
    · exact .inl h
  · exact .inl h
  · rw [declareUnique_scopes_active] at h
    exact .inl h

theorem mem_scopes_enterBlock {scope : Nat} (h : scope ∈ (enterBlock state id).active.scopes) :
    scope ∈ state.active.scopes ∨ state.scopes.size ≤ scope := by
  cases hentry : state.blockEntry with
  | fresh =>
    obtain ⟨facts, hblock⟩ := enterBlock_fresh id hentry
    rw [hblock] at h
    rcases List.mem_cons.mp h with rfl | h
    · exact .inr (Nat.le_refl _)
    · exact .inl h
  | reuse =>
    obtain ⟨facts, hblock⟩ := enterBlock_reuse id hentry
    rw [hblock] at h
    exact .inl h

theorem leave_suffix (state : State) (id : NodeId) (node : Node) :
    (step state (.leave id node)).active.scopes <:+ state.active.scopes := by
  cases hopening : node.label.opening? with
  | none => exact (leave_other state id hopening).2 ▸ List.suffix_refl _
  | some opening =>
    cases opening with
    | function =>
      rw [(leave_function state id (Label.opening?_eq_function.mp hopening)).2]
      exact state.floor_suffix
    | block =>
      rw [(leave_block state id (Label.opening?_eq_block.mp hopening)).2]
      exact List.tail_suffix _

/-- A scope that is active was so before, or it has been created since. -/
theorem mem_scopes_step {event : Event} {scope : Nat} (h : scope ∈ (step state event).active.scopes) :
    scope ∈ state.active.scopes ∨ state.scopes.size ≤ scope := by
  cases event with
  | leave id node => exact .inl ((leave_suffix state id node).subset h)
  | enter id node =>
    obtain ⟨label, line, children, sibling⟩ := node
    cases label with
    | declaration decl => exact mem_scopes_enterDeclaration line decl h
    | expression expr =>
      rw [(enter_other state id rfl).2] at h
      exact .inl h
    | statement stmt =>
      cases stmt with
      | block => exact mem_scopes_enterBlock h
      | ifThen | whileDo | ret => exact .inl h

theorem mem_scopes_run {events : List Event} {scope : Nat}
    (h : scope ∈ (run state events).active.scopes) :
    scope ∈ state.active.scopes ∨ state.scopes.size ≤ scope := by
  induction events generalizing state with
  | nil => exact .inl h
  | cons event events ih =>
    rcases ih h with hmem | hsize
    · exact mem_scopes_step hmem
    · exact .inr (Nat.le_trans (grows_step event).scopes.size_le hsize)

theorem resolution_declareUnique (line : UInt32) (decl : Declaration) (other : NodeId) :
    (declareUnique state id line decl).facts.resolution other = state.facts.resolution other := by
  simp only [declareUnique]
  split
  · rfl
  · simp

/-- A use is resolved when it is entered, to what its name means then. -/
theorem resolution_enter_use {expr : Expression} {name : String}
    (hexpr : node.label = .expression expr) (hname : expr.name? = some name)
    (hnone : state.facts.resolution id = none) :
    (step state (.enter id node)).facts.resolution id = state.lookup name := by
  simp only [step, enter, hexpr, hname, resolve]
  cases hlookup : state.lookup name with
  | none => exact hnone
  | some symbol => simp [State.addReference, NodeFacts.resolution_resolve]

theorem resolution_step_of_ne (event : Event) (other : NodeId)
    (hne : ∀ node, event ≠ .enter other node) :
    (step state event).facts.resolution other = state.facts.resolution other := by
  cases event with
  | leave id node => rw [facts_leave]
  | enter id node =>
    have hid : id ≠ other := by
      rintro rfl
      exact hne node rfl
    simp only [step, enter]
    split
    · simp only [enterDeclaration]
      split
      · exact resolution_declareUnique _ _ _
      · rfl
      · exact resolution_declareUnique _ _ _
    · simp only [enterBlock]
      cases state.blockEntry with
      | fresh =>
        split
        · rfl
        · exact NodeFacts.resolution_bindScope ..
      | reuse =>
        split
        · rfl
        · exact NodeFacts.resolution_bindScope ..
    · rfl
    · split
      · rfl
      · simp only [resolve]
        split
        · exact (NodeFacts.resolution_resolve ..).trans (if_neg hid)
        · rfl

theorem resolution_run_of_not_mem {events : List Event} {other : NodeId}
    (hother : ∀ node, .enter other node ∉ events) :
    (run state events).facts.resolution other = state.facts.resolution other :=
  run_of_not_mem (fun state => state.facts.resolution other)
    (fun _ event hne => resolution_step_of_ne event other hne) hother state

end Resolution

end ScopeCheck
