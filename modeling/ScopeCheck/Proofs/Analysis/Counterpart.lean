import ScopeCheck.Proofs.Analysis.ComplaintRenaming
import ScopeCheck.Proofs.Analysis.ScopeCreation
import ScopeCheck.Proofs.Scope.Renaming

namespace ScopeCheck

/-- How a second run may differ from a first one: in the names of nodes, of functions and of
symbols, and in symbols that the global scope has before all others. -/
structure Change where
  node : NodeId → String → String
  function : String → String
  symbol : SymbolId → String → String
  added : Array Symbol

namespace Change

variable (change : Change)

/-- The number that a symbol of the first run has in the second one. -/
def number (id : SymbolId) : SymbolId := change.added.size + id

/-- The slot of the second run that the first slot of a scope becomes. -/
def firstSlot (scope : ScopeId) : UInt32 :=
  if scope = State.global then UInt32.ofNat change.added.size else 0

def onSymbol (id : SymbolId) (symbol : Symbol) : Symbol :=
  { symbol with
    name := change.symbol id symbol.name
    slot := symbol.slot + change.firstSlot symbol.scope }

def onSymbols (symbols : Array Symbol) : Array Symbol :=
  change.added ++ symbols.mapIdx change.onSymbol

def onFrame (frame : Frame) : Frame :=
  { frame with nextSlot := frame.nextSlot + change.firstSlot frame.scope }

def onEvent (event : Event) : Event := event.mapNode fun id => Node.rename (change.node id)

def Shows (table : SymbolTable) (name : String) (scope : ScopeId) (id : SymbolId) : Prop :=
  (∃ symbol, change.added[id]? = some symbol ∧ symbol.name = name ∧ symbol.scope = scope) ∨
  ∃ older symbol, id = change.number older ∧ table.get? older = some symbol ∧
    change.symbol older symbol.name = name ∧ symbol.scope = scope

/-- A node that is entered does the same in both runs: what it declares is new in both or in none,
and what it uses means the same. -/
structure Fits (state : State) (id : NodeId) (node : Node) : Prop where
  declares : ∀ decl scope, node.label.declares? = some decl → state.top = some scope →
    ((∃ found, change.Shows state.symbols (change.node id decl.name) scope found) ↔
      ∃ found, state.symbols.Has decl.name scope found)
  fresh : ∀ decl scope, node.label.declares? = some decl → state.top = some scope →
    (∀ found, ¬ state.symbols.Has decl.name scope found) →
      change.symbol state.symbols.size decl.name = change.node id decl.name
  uses : ∀ name, node.label.uses? = some name → ∀ scope found,
    change.Shows state.symbols (change.node id name) scope found →
      ∃ older, found = change.number older ∧ state.symbols.Has name scope older
  resolves : ∀ name found, node.label.uses? = some name → state.lookup name = some found →
    ∀ scope, state.symbols.Has name scope found →
      change.Shows state.symbols (change.node id name) scope (change.number found)

/-- The states of both runs correspond. -/
structure Relates (state other : State) : Prop where
  scopes : other.scopes = state.scopes.rename change.function
  symbols : other.symbols.symbols = change.onSymbols state.symbols.symbols
  facts : other.facts = state.facts.renumber change.number
  frames : other.active.frames = state.active.frames.map change.onFrame
  blockEntry : other.blockEntry = state.blockEntry

variable {change}

theorem number_inj {id other : SymbolId} : change.number id = change.number other ↔ id = other :=
  Nat.add_left_cancel_iff

theorem ne_number {id : SymbolId} (h : id < change.added.size) (older : SymbolId) :
    id ≠ change.number older :=
  Nat.ne_of_lt (Nat.lt_of_lt_of_le h (Nat.le_add_right _ _))

theorem exists_number {id : SymbolId} (h : change.added.size ≤ id) :
    ∃ older, id = change.number older :=
  ⟨id - change.added.size, (Nat.add_sub_cancel' h).symm⟩

theorem number_of_added (hadded : change.added = #[]) (id : SymbolId) : change.number id = id := by
  rw [number, hadded]
  exact Nat.zero_add id

theorem firstSlot_of_added (hadded : change.added = #[]) (scope : ScopeId) :
    change.firstSlot scope = 0 := by
  rw [firstSlot, hadded]
  split <;> rfl

theorem onSymbol_of_added (hadded : change.added = #[]) (id : SymbolId) (symbol : Symbol) :
    change.onSymbol id symbol = { symbol with name := change.symbol id symbol.name } := by
  rw [onSymbol, firstSlot_of_added hadded, UInt32.add_zero]

theorem shows_of_added (hadded : change.added = #[]) {table : SymbolTable} {name : String}
    {scope : ScopeId} {id : SymbolId} :
    change.Shows table name scope id ↔ ∃ symbol, table.get? id = some symbol ∧
      change.symbol id symbol.name = name ∧ symbol.scope = scope := by
  simp [Shows, number_of_added hadded, hadded]

theorem getElem?_onSymbols_added (symbols : Array Symbol) {id : SymbolId}
    (h : id < change.added.size) : (change.onSymbols symbols)[id]? = change.added[id]? :=
  Array.getElem?_append_left h

theorem getElem?_onSymbols (symbols : Array Symbol) (id : SymbolId) :
    (change.onSymbols symbols)[change.number id]? = symbols[id]?.map (change.onSymbol id) := by
  simp [onSymbols, number, Array.getElem?_append_right]

theorem size_onSymbols (symbols : Array Symbol) :
    (change.onSymbols symbols).size = change.number symbols.size := by
  simp [onSymbols, number]

theorem onSymbols_push (symbols : Array Symbol) (symbol : Symbol) :
    change.onSymbols (symbols.push symbol) =
      (change.onSymbols symbols).push (change.onSymbol symbols.size symbol) := by
  simp [onSymbols, Array.mapIdx_push]

theorem onSymbols_modify (symbols : Array Symbol) (id : SymbolId) {update : Symbol → Symbol}
    (hupdate : ∀ id symbol, change.onSymbol id (update symbol) = update (change.onSymbol id symbol)) :
    change.onSymbols (symbols.modify id update) =
      (change.onSymbols symbols).modify (change.number id) update := by
  apply Array.ext_getElem?
  intro other
  rw [Array.getElem?_modify]
  by_cases hlt : other < change.added.size
  · rw [if_neg (ne_number hlt id).symm, getElem?_onSymbols_added _ hlt,
      getElem?_onSymbols_added _ hlt]
  · obtain ⟨older, rfl⟩ := exists_number (Nat.le_of_not_lt hlt)
    rw [getElem?_onSymbols, getElem?_onSymbols, Array.getElem?_modify]
    simp only [number_inj]
    split
    · rw [Option.map_map, Option.map_map]
      congr 1
      funext symbol
      exact hupdate older symbol
    · rfl

namespace Fits

variable {state : State} {id : NodeId} {node : Node}

theorem of_declares {decl : Declaration} (hdeclares : node.label.declares? = some decl)
    (hnew : ∀ scope, state.top = some scope →
      ((∃ found, change.Shows state.symbols (change.node id decl.name) scope found) ↔
        ∃ found, state.symbols.Has decl.name scope found))
    (hfresh : ∀ scope, state.top = some scope →
      (∀ found, ¬ state.symbols.Has decl.name scope found) →
        change.symbol state.symbols.size decl.name = change.node id decl.name) :
    change.Fits state id node where
  declares other scope hother htop := by
    obtain rfl : decl = other := Option.some.inj (hdeclares.symm.trans hother)
    exact hnew scope htop
  fresh other scope hother htop hnone := by
    obtain rfl : decl = other := Option.some.inj (hdeclares.symm.trans hother)
    exact hfresh scope htop hnone
  uses name huses := by
    rw [Label.uses?_eq_none hdeclares] at huses
    cases huses
  resolves name found huses := by
    rw [Label.uses?_eq_none hdeclares] at huses
    cases huses

theorem of_uses {name : String} (huses : node.label.uses? = some name)
    (hold : ∀ scope found, change.Shows state.symbols (change.node id name) scope found →
      ∃ older, found = change.number older ∧ state.symbols.Has name scope older)
    (hresolves : ∀ found, state.lookup name = some found → ∀ scope,
      state.symbols.Has name scope found →
        change.Shows state.symbols (change.node id name) scope (change.number found)) :
    change.Fits state id node where
  declares decl scope hdeclares := by
    rw [Label.declares?_eq_none huses] at hdeclares
    cases hdeclares
  fresh decl scope hdeclares := by
    rw [Label.declares?_eq_none huses] at hdeclares
    cases hdeclares
  uses other hother := by
    obtain rfl : name = other := Option.some.inj (huses.symm.trans hother)
    exact hold
  resolves other found hother := by
    obtain rfl : name = other := Option.some.inj (huses.symm.trans hother)
    exact hresolves found

theorem of_silent (hdeclares : node.label.declares? = none) (huses : node.label.uses? = none) :
    change.Fits state id node :=
  ⟨by simp [hdeclares], by simp [hdeclares], by simp [huses], by simp [huses]⟩

end Fits

namespace Relates

variable {state other : State} (h : change.Relates state other)

include h

theorem active_scopes : other.active.scopes = state.active.scopes := by
  rw [ActiveScopes.scopes, ActiveScopes.scopes, h.frames, List.map_map]
  rfl

theorem top_eq : other.top = state.top := by
  rw [State.top_eq_head?, State.top_eq_head?, h.active_scopes]

theorem active_eq : other.active = ⟨state.active.frames.map change.onFrame⟩ :=
  congrArg ActiveScopes.mk h.frames

theorem nextSlot_eq {scope : ScopeId} (htop : state.top = some scope) :
    other.active.nextSlot = state.active.nextSlot.map (· + change.firstSlot scope) := by
  rw [h.active_eq]
  rw [State.top, ActiveScopes.top] at htop
  simp only [ActiveScopes.nextSlot, List.head?_map]
  obtain ⟨frame, hframe, rfl⟩ := Option.map_eq_some_iff.mp htop
  rw [hframe]
  rfl

theorem size_scopes : other.scopes.size = state.scopes.size := by
  rw [h.scopes, ScopeTable.size_rename]

theorem size_symbols : other.symbols.size = change.number state.symbols.size := by
  rw [SymbolTable.size, h.symbols, size_onSymbols]
  rfl

theorem has_iff {name : String} {scope : ScopeId} {id : SymbolId} :
    other.symbols.Has name scope id ↔ change.Shows state.symbols name scope id := by
  have hget : other.symbols.get? id = (change.onSymbols state.symbols.symbols)[id]? := by
    rw [SymbolTable.get?, h.symbols]
  rw [SymbolTable.Has, Shows, hget]
  by_cases hlt : id < change.added.size
  · simp [getElem?_onSymbols_added _ hlt, ne_number hlt]
  · obtain ⟨older, rfl⟩ := exists_number (Nat.le_of_not_lt hlt)
    have hnone : change.added[change.number older]? = none :=
      Array.getElem?_eq_none (Nat.le_of_not_lt hlt)
    simp [getElem?_onSymbols, hnone, number_inj, onSymbol, SymbolTable.get?]

theorem lookupLocal_eq_none_iff (hstate : state.Sound) (hother : other.Sound) {id : NodeId}
    {node : Node} (hfits : change.Fits state id node) {decl : Declaration} {scope : ScopeId}
    (hdeclares : node.label.declares? = some decl) (htop : state.top = some scope) :
    other.lookupLocal other.function (change.node id decl.name) = none ↔
      state.lookupLocal state.function decl.name = none := by
  have hshows := hfits.declares decl scope hdeclares htop
  rw [hstate.lookupLocal_eq htop, hother.lookupLocal_eq (h.top_eq.trans htop),
    Option.eq_none_iff_forall_ne_some, Option.eq_none_iff_forall_ne_some]
  simp only [ne_eq, hstate.indexed _ _ _, hother.indexed _ _ _, h.has_iff, ← not_exists, hshows]

theorem lookup_eq (hstate : state.Sound) (hother : other.Sound) {id : NodeId} {node : Node}
    (hfits : change.Fits state id node) {name : String} (huses : node.label.uses? = some name) :
    other.lookup (change.node id name) = (state.lookup name).map change.number := by
  have hold := hfits.uses name huses
  cases hlookup : state.lookup name with
  | none =>
    refine hother.lookup_eq_none_iff.mpr fun scope hscope found hfound => ?_
    rw [h.active_scopes] at hscope
    obtain ⟨older, -, hhas⟩ := hold scope found (h.has_iff.mp hfound)
    exact hstate.lookup_eq_none_iff.mp hlookup scope hscope older hhas
  | some symbol =>
    obtain ⟨inner, scope, outer, hscopes, hhas, hinner⟩ := hstate.lookup_eq_some_iff.mp hlookup
    -- What the second run has under the name further in, the first run has there, too.
    refine hother.lookup_eq_some_iff.mpr ⟨inner, scope, outer, h.active_scopes.trans hscopes,
      h.has_iff.mpr (hfits.resolves name symbol huses hlookup scope hhas), ?_⟩
    intro nearer hnearer found hfound
    obtain ⟨older, -, hhas⟩ := hold nearer found (h.has_iff.mp hfound)
    exact hinner nearer hnearer older hhas

theorem report (diagnostic diagnostic' : Diagnostic) :
    change.Relates (state.report diagnostic) (other.report diagnostic') :=
  ⟨h.scopes, h.symbols, h.facts, h.frames, h.blockEntry⟩

theorem expect (entry : BlockEntry) : change.Relates (state.expect entry) (other.expect entry) :=
  ⟨h.scopes, h.symbols, h.facts, h.frames, rfl⟩

theorem addReference (id : NodeId) (symbol : SymbolId) (line : UInt32) :
    change.Relates (state.addReference id symbol line)
      (other.addReference id (change.number symbol) line) where
  scopes := h.scopes
  symbols := by
    simp only [State.addReference, SymbolTable.addReference, h.symbols]
    exact (onSymbols_modify _ _ fun _ _ => rfl).symm
  facts := by
    simp only [State.addReference, h.facts, NodeFacts.renumber_resolve]
  frames := h.frames
  blockEntry := h.blockEntry

theorem bindScope (id : NodeId) (scope : ScopeId) :
    change.Relates (state.bindScope id scope) (other.bindScope id scope) where
  scopes := h.scopes
  symbols := h.symbols
  facts := by
    simp only [State.bindScope, h.facts, NodeFacts.renumber_bindScope]
  frames := h.frames
  blockEntry := h.blockEntry

theorem pop : change.Relates state.pop other.pop := by
  obtain ⟨active, function, hpop⟩ := state.pop_frame
  obtain ⟨active', function', hpop'⟩ := other.pop_frame
  have hframes : active'.frames = active.frames.map change.onFrame := by
    have hactive : active = state.active.pop := by rw [← state.pop_active, hpop]
    have hactive' : active' = other.active.pop := by rw [← other.pop_active, hpop']
    rw [hactive, hactive', ActiveScopes.pop, ActiveScopes.pop, h.frames, List.map_tail]
  rw [hpop, hpop']
  exact ⟨h.scopes, h.symbols, h.facts, hframes, h.blockEntry⟩

theorem openNamed (hstate : state.Sound) {scope : ScopeId} (htop : state.top = some scope)
    (kind : ScopeKind) {name name' : String}
    (hname : name' = if kind = .function ∨ state.scopes.inFunction scope then change.function name
      else name) :
    change.Relates (({ state with function := name } : State).openScope kind)
      (({ other with function := name' } : State).openScope kind) where
  scopes := by
    have hcreate := @ScopeTable.rename_create _ kind name _ change.function hstate.ordered
      hstate.lt_size
    rw [htop, Option.any_some, ← hname, ← h.scopes] at hcreate
    show other.scopes.create kind name' other.top =
      (state.scopes.create kind name state.top).rename change.function
    rw [h.top_eq, htop, hcreate]
  symbols := h.symbols
  facts := h.facts
  frames := by
    -- The new scope is not the global one, so its slots start from zero in both runs.
    have hne : state.scopes.size ≠ State.global :=
      Nat.ne_of_gt (Nat.lt_of_le_of_lt (Nat.zero_le _) (hstate.lt_size scope htop))
    have hframe : change.onFrame ⟨state.scopes.size, 0⟩ = ⟨state.scopes.size, 0⟩ := by
      rw [onFrame, firstSlot, if_neg hne]
      rfl
    simp only [State.openScope, ActiveScopes.push, List.map_cons, h.size_scopes, h.frames, hframe]
  blockEntry := h.blockEntry

theorem declare {id : NodeId} {line : UInt32} {decl : Declaration} {scope : ScopeId} {slot : UInt32}
    (hname : change.symbol state.symbols.size decl.name = change.node id decl.name) :
    change.Relates
      { state with
        symbols := state.symbols.declare scope slot ⟨decl.name, decl.kind, decl.type, line, .node id⟩
        active := state.active.takeSlot
        facts := state.facts.recordDeclaration id state.symbols.size }
      { other with
        symbols := other.symbols.declare scope (slot + change.firstSlot scope)
          ⟨change.node id decl.name, decl.kind, decl.type, line, .node id⟩
        active := other.active.takeSlot
        facts := other.facts.recordDeclaration id other.symbols.size } where
  scopes := h.scopes
  symbols := by
    have hpush := @onSymbols_push change state.symbols.symbols
      { name := decl.name, kind := decl.kind, type := decl.type, line, origin := .node id, scope,
        slot, references := #[] }
    have hsize : change.symbol state.symbols.symbols.size decl.name = change.node id decl.name :=
      hname
    simp only [onSymbol, hsize, ← h.symbols] at hpush
    exact hpush.symm
  facts := by
    simp only [h.facts, h.size_symbols, NodeFacts.renumber_recordDeclaration]
  frames := by
    show other.active.takeSlot.frames = state.active.takeSlot.frames.map change.onFrame
    rw [h.active_eq]
    obtain ⟨frames⟩ := state.active
    cases frames with
    | nil => rfl
    | cons frame frames =>
      have hslot : frame.nextSlot + change.firstSlot frame.scope + 1 =
          frame.nextSlot + 1 + change.firstSlot frame.scope := by
        rw [UInt32.add_assoc, UInt32.add_comm (change.firstSlot frame.scope), UInt32.add_assoc]
      simp [ActiveScopes.takeSlot, onFrame, hslot]
  blockEntry := h.blockEntry

end Relates

section Step

variable {state other : State} {id : NodeId} {node : Node} (h : change.Relates state other)
  (hstate : state.Sound) (hother : other.Sound) {scope : ScopeId} (htop : state.top = some scope)

include h hstate hother

theorem relates_declareUnique (htop : state.top = some scope) (hfits : change.Fits state id node)
    {decl : Declaration} (hdeclares : node.label.declares? = some decl) (line : UInt32) :
    change.Relates (Resolution.declareUnique state id line decl)
      (Resolution.declareUnique other id line (decl.rename (change.node id))) := by
  have hnone := h.lookupLocal_eq_none_iff hstate hother hfits hdeclares htop
  cases hlookup : state.lookupLocal state.function decl.name with
  | some earlier =>
    obtain ⟨earlier', hlookup'⟩ := Option.ne_none_iff_exists'.mp
      (mt hnone.mp (by simp [hlookup]))
    rw [Resolution.declareUnique_duplicate hlookup, Resolution.declareUnique_duplicate hlookup']
    exact h.report _ _
  | none =>
    have hlookup' := hnone.mpr hlookup
    obtain ⟨slot, hslot, heq⟩ := @Resolution.exists_declareUnique_eq _ id line _ _ hlookup htop
    obtain ⟨slot', hslot', heq'⟩ := @Resolution.exists_declareUnique_eq _ id line
      (decl.rename (change.node id)) _ hlookup' (h.top_eq.trans htop)
    obtain rfl : slot' = slot + change.firstSlot scope := by
      rw [h.nextSlot_eq htop, hslot] at hslot'
      exact (Option.some.inj hslot').symm
    rw [heq, heq']
    apply h.declare
    apply hfits.fresh decl scope hdeclares htop
    intro found hfound
    rw [hstate.lookupLocal_eq htop, (hstate.indexed _ _ _).mpr hfound] at hlookup
    cases hlookup

theorem relates_resolve (hfits : change.Fits state id node) {name : String}
    (huses : node.label.uses? = some name) (line : UInt32) :
    change.Relates (Resolution.resolve state id line name)
      (Resolution.resolve other id line (change.node id name)) := by
  simp only [Resolution.resolve, h.lookup_eq hstate hother hfits huses]
  cases state.lookup name with
  | none => exact h.report _ _
  | some symbol => exact h.addReference id symbol line

theorem relates_enterBlock (htop : state.top = some scope) :
    change.Relates (Resolution.enterBlock state id) (Resolution.enterBlock other id) := by
  have hname : other.function =
      if ScopeKind.block = .function ∨ state.scopes.inFunction scope then
        change.function state.function else state.function := by
    have hcurrent := hother.current scope (h.top_eq.trans htop)
    rw [h.scopes, ScopeTable.name?_rename, hstate.current scope htop] at hcurrent
    simpa using (Option.some.inj hcurrent).symm
  simp only [Resolution.enterBlock, h.blockEntry]
  cases state.blockEntry with
  | reuse =>
    have hsettled := h.expect .fresh
    rw [hsettled.top_eq, show (state.expect .fresh).top = some scope from htop]
    exact hsettled.bindScope id scope
  | fresh =>
    have hopened : change.Relates (state.openScope .block) (other.openScope .block) :=
      h.openNamed hstate htop .block hname
    rw [hopened.top_eq]
    exact hopened.bindScope id state.scopes.size

theorem relates_enter (htop : state.top = some scope) (hfits : change.Fits state id node)
    (hfunction : ∀ decl, node.label = .declaration decl → decl.kind = .function →
      change.node id decl.name = change.function decl.name) :
    change.Relates (Resolution.step state (.enter id node))
      (Resolution.step other (change.onEvent (.enter id node))) := by
  show change.Relates _ (Resolution.step other (.enter id (node.rename (change.node id))))
  have hdeclares' : (node.rename (change.node id)).label.declares? =
      node.label.declares?.map (Declaration.rename (change.node id)) :=
    node.label.declares?_rename (change.node id)
  have huses' : (node.rename (change.node id)).label.uses? =
      node.label.uses?.map (change.node id) :=
    node.label.uses?_rename (change.node id)
  cases hdeclares : node.label.declares? with
  | some decl =>
    rw [hdeclares, Option.map_some] at hdeclares'
    have hunique := relates_declareUnique h hstate hother htop hfits hdeclares node.line
    by_cases hkind : decl.kind = .function
    · rw [Resolution.enter_function_declaration state id hdeclares hkind,
        Resolution.enter_function_declaration other id hdeclares' hkind]
      refine (hunique.openNamed (Resolution.sound_declareUnique hstate _ _)
        ((Resolution.declareUnique_top _ _).trans htop) .function ?_).expect .reuse
      rw [if_pos (.inl rfl)]
      exact hfunction decl (Label.eq_declaration hdeclares).1 hkind
    · rw [Resolution.enter_plain_declaration state id hdeclares hkind,
        Resolution.enter_plain_declaration other id hdeclares' hkind]
      exact hunique
  | none =>
    rw [hdeclares, Option.map_none] at hdeclares'
    cases huses : node.label.uses? with
    | some name =>
      rw [huses, Option.map_some] at huses'
      rw [Resolution.enter_use state id huses, Resolution.enter_use other id huses']
      exact relates_resolve h hstate hother hfits huses node.line
    | none =>
      rw [huses, Option.map_none] at huses'
      -- A node without a name of its own does something only if it is a block.
      by_cases hblock : node.label.isBlock
      · have hblock' := Label.eq_block hblock
        simp only [Resolution.step, Resolution.enter, Node.rename, hblock', Label.rename]
        exact relates_enterBlock h hstate hother htop
      · have hblock' : ¬ (node.rename (change.node id)).label.isBlock := by
          rwa [Node.rename, Label.isBlock_rename]
        rw [Resolution.enter_silent state id hdeclares huses hblock,
          Resolution.enter_silent other id hdeclares' huses' hblock']
        exact h

end Step

theorem relates_leave {state other : State} (h : change.Relates state other) (id : NodeId)
    (node : Node) :
    change.Relates (Resolution.step state (.leave id node))
      (Resolution.step other (change.onEvent (.leave id node))) := by
  show change.Relates _ (Resolution.step other (.leave id (node.rename (change.node id))))
  cases hopening : node.label.opening? with
  | none =>
    have hopening' : (node.rename (change.node id)).label.opening? = none := by
      rwa [Node.rename, Label.opening?_rename]
    rw [Resolution.step_leave_other state id hopening,
      Resolution.step_leave_other other id hopening']
    exact h
  | some opening =>
    cases opening with
    | block =>
      have hblock := Label.eq_block (Label.opening?_eq_block.mp hopening)
      simp only [Resolution.step, Resolution.leave, Node.rename, hblock, Label.rename]
      exact h.pop
    | function =>
      obtain ⟨⟨kind, name, type, size⟩, hdecl, rfl⟩ :=
        Label.exists_declaration (Label.opening?_eq_function.mp hopening)
      simp only [Resolution.step, Resolution.leave, Node.rename, hdecl, Label.rename,
        Declaration.rename, Resolution.leaveFunction, h.blockEntry]
      cases state.blockEntry with
      | reuse => exact (h.expect .fresh).pop
      | fresh => exact h

section Start

variable {builtins builtins' : Bool}

theorem relates_start (hsymbols : (State.start builtins').symbols.symbols =
      change.onSymbols (State.start builtins).symbols.symbols)
    (hframes : (State.start builtins').active.frames =
      (State.start builtins).active.frames.map change.onFrame) :
    change.Relates (.start builtins) (.start builtins') where
  scopes := by
    have hscopes : ∀ builtins, (State.start builtins).scopes =
        ScopeTable.empty.create .global Scope.globalName none := by
      intro builtins
      cases builtins <;> rfl
    have hordered : ScopeTable.empty.Ordered := by
      intro id outer hparent
      cases hparent
    have hcreate := @ScopeTable.rename_create .empty .global Scope.globalName none change.function
      hordered fun _ hparent => nomatch hparent
    rw [hscopes, hscopes, hcreate]
    simp [ScopeTable.rename, ScopeTable.empty]
  symbols := hsymbols
  facts := by rw [State.start_facts, State.start_facts, NodeFacts.renumber_empty]
  frames := hframes
  blockEntry := by rw [State.start_blockEntry, State.start_blockEntry]

theorem onSymbols_eq_self (hadded : change.added = #[]) {symbols : Array Symbol}
    (h : ∀ id symbol, symbols[id]? = some symbol → change.symbol id symbol.name = symbol.name) :
    change.onSymbols symbols = symbols := by
  apply Array.ext_getElem?
  intro id
  have hget := @getElem?_onSymbols change symbols id
  rw [number_of_added hadded] at hget
  rw [hget]
  cases hsymbol : symbols[id]? with
  | none => rfl
  | some symbol => rw [Option.map_some, onSymbol_of_added hadded, h id symbol hsymbol]

theorem relates_start_self (hadded : change.added = #[])
    (h : ∀ id symbol, (State.start builtins).symbols.get? id = some symbol →
      change.symbol id symbol.name = symbol.name) :
    change.Relates (.start builtins) (.start builtins) := by
  apply relates_start
  · exact (onSymbols_eq_self hadded h).symm
  · have hframe : change.onFrame = id := by
      funext frame
      rw [onFrame, firstSlot_of_added hadded, UInt32.add_zero]
      rfl
    rw [hframe, List.map_id]

end Start

/-- Both runs go through a program side by side. The induction is on how far the walk has come. -/
theorem relates_run {tree : Tree} {builtins builtins' : Bool}
    (hstart : change.Relates (.start builtins) (.start builtins'))
    (hnames : tree.RenamesFunctions change.node change.function)
    (hfits : ∀ before id node, before ++ [.enter id node] <+: tree.events →
      change.Fits (Resolution.run (.start builtins) before) id node)
    {before : List Event} (hbefore : before <+: tree.events) :
    change.Relates (Resolution.run (.start builtins) before)
      (Resolution.run (.start builtins') (before.map change.onEvent)) := by
  induction before using List.reverseRecOn with
  | nil => exact hstart
  | append_singleton before event ih =>
    have hprefix := (List.prefix_append before [event]).trans hbefore
    have h := ih hprefix
    rw [List.map_append, List.map_singleton, Resolution.run_concat, Resolution.run_concat]
    cases event with
    | leave id node => exact relates_leave h id node
    | enter id node =>
      obtain ⟨scope, htop⟩ := Resolution.exists_top builtins hprefix
      have hmem : (id, node) ∈ tree.entered :=
        List.mem_filterMap.mpr ⟨.enter id node, hbefore.subset (by simp), rfl⟩
      exact relates_enter h (Resolution.sound_run (State.sound_start builtins) _)
        (Resolution.sound_run (State.sound_start builtins') _) htop (hfits before id node hbefore)
        fun decl => hnames.declaration id node decl hmem

end Change

end ScopeCheck
