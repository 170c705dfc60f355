import ScopeCheck.Proofs.Analysis.Growth
import ScopeCheck.Proofs.Analysis.ResolutionStep
import ScopeCheck.Proofs.Tree.Enclosing

namespace ScopeCheck

/-- Nothing is declared, resolved or complained about. -/
structure State.KeepsNames (state later : State) : Prop where
  symbols : later.symbols = state.symbols
  diagnostics : later.diagnostics = state.diagnostics
  resolution : ∀ id, later.facts.resolution id = state.facts.resolution id
  declared : ∀ id, later.facts.declared id = state.facts.declared id

namespace State.KeepsNames

theorem refl (state : State) : state.KeepsNames state :=
  ⟨rfl, rfl, fun _ => rfl, fun _ => rfl⟩

theorem pop (state : State) : state.KeepsNames state.pop := by
  obtain ⟨active, function, hpop⟩ := state.pop_frame
  rw [hpop]
  exact ⟨rfl, rfl, fun _ => rfl, fun _ => rfl⟩

end State.KeepsNames

namespace Resolution

open State (KeepsNames)

variable {state : State} {id : NodeId} {node : Node}

theorem keepsNames_leave (state : State) (id : NodeId) (node : Node) :
    KeepsNames state (step state (.leave id node)) := by
  simp only [step, leave]
  split
  · exact .pop state
  · simp only [leaveFunction]
    split
    · have hpop := KeepsNames.pop (state.expect .fresh)
      exact ⟨hpop.symbols, hpop.diagnostics, hpop.resolution, hpop.declared⟩
    · exact .refl state
  · exact .refl state

theorem keepsNames_enter_silent (hdeclares : node.label.declares? = none)
    (huses : node.label.uses? = none) : KeepsNames state (step state (.enter id node)) := by
  by_cases hblock : node.label.isBlock
  · simp only [step, enter, Label.eq_block hblock, enterBlock]
    cases state.blockEntry with
    | fresh =>
      split
      · exact ⟨rfl, rfl, fun _ => rfl, fun _ => rfl⟩
      · exact ⟨rfl, rfl, fun _ => NodeFacts.resolution_bindScope .., fun _ =>
          NodeFacts.declared_bindScope ..⟩
    | reuse =>
      split
      · exact ⟨rfl, rfl, fun _ => rfl, fun _ => rfl⟩
      · exact ⟨rfl, rfl, fun _ => NodeFacts.resolution_bindScope .., fun _ =>
          NodeFacts.declared_bindScope ..⟩
  · rw [enter_silent state id hdeclares huses hblock]
    exact .refl state

theorem keepsNames_enter_declaration {decl : Declaration} (h : node.label.declares? = some decl) :
    KeepsNames (declareUnique state id node.line decl) (step state (.enter id node)) := by
  by_cases hkind : decl.kind = .function
  · rw [enter_function_declaration state id h hkind]
    exact ⟨rfl, rfl, fun _ => rfl, fun _ => rfl⟩
  · rw [enter_plain_declaration state id h hkind]
    exact .refl _

theorem declareUnique_duplicate {line : UInt32} {decl : Declaration} {earlier : SymbolId}
    (h : state.lookupLocal state.function decl.name = some earlier) :
    declareUnique state id line decl = state.report ⟨line, .duplicateDeclaration decl.name⟩ := by
  simp only [declareUnique, h]

theorem exists_declareUnique_eq {line : UInt32} {decl : Declaration} {scope : ScopeId}
    (h : state.lookupLocal state.function decl.name = none) (htop : state.top = some scope) :
    ∃ slot, state.active.nextSlot = some slot ∧ declareUnique state id line decl =
      { state with
        symbols := state.symbols.declare scope slot ⟨decl.name, decl.kind, decl.type, line, .node id⟩
        active := state.active.takeSlot
        facts := state.facts.recordDeclaration id state.symbols.size } := by
  obtain ⟨slot, hslot⟩ : ∃ slot, state.active.nextSlot = some slot := by
    rw [State.top, ActiveScopes.top] at htop
    obtain ⟨frame, hframe, -⟩ := Option.map_eq_some_iff.mp htop
    exact ⟨frame.nextSlot, by rw [ActiveScopes.nextSlot, hframe, Option.map_some]⟩
  refine ⟨slot, hslot, ?_⟩
  rw [State.top] at htop
  simp only [declareUnique, h, State.declare, htop, hslot]

theorem declared_declareUnique (line : UInt32) (decl : Declaration) {other : NodeId}
    (hne : id ≠ other) :
    (declareUnique state id line decl).facts.declared other = state.facts.declared other := by
  simp only [declareUnique]
  split
  · rfl
  · simp only [State.declare]
    split
    · rw [NodeFacts.declared_recordDeclaration, if_neg hne]
    · rfl

theorem declared_resolve (line : UInt32) (name : String) (other : NodeId) :
    (resolve state id line name).facts.declared other = state.facts.declared other := by
  simp only [resolve]
  split <;> rfl

theorem declared_step_of_ne (event : Event) (other : NodeId)
    (hne : ∀ node, event ≠ .enter other node) :
    (step state event).facts.declared other = state.facts.declared other := by
  cases event with
  | leave id node => rw [facts_leave]
  | enter id node =>
    have hid : id ≠ other := by
      rintro rfl
      exact hne node rfl
    cases hdeclares : node.label.declares? with
    | some decl =>
      rw [(keepsNames_enter_declaration hdeclares).declared]
      exact declared_declareUnique _ _ hid
    | none =>
      cases huses : node.label.uses? with
      | some name =>
        rw [enter_use state id huses]
        exact declared_resolve _ _ _
      | none => exact (keepsNames_enter_silent hdeclares huses).declared other

theorem declared_run_of_not_mem {events : List Event} {other : NodeId}
    (hother : ∀ node, .enter other node ∉ events) :
    (run state events).facts.declared other = state.facts.declared other :=
  run_of_not_mem (fun state => state.facts.declared other)
    (fun _ event hne => declared_step_of_ne event other hne) hother state

section Settled

variable {tree : Tree} {before after : List Event} (hwell : tree.WellLinked) (builtins : Bool)
  (hevents : tree.events = before ++ .enter id node :: after)

include hwell hevents

theorem facts_settled :
    (run (.start builtins) tree.events).facts.declared id =
        (step (run (.start builtins) before) (.enter id node)).facts.declared id ∧
      (run (.start builtins) tree.events).facts.resolution id =
        (step (run (.start builtins) before) (.enter id node)).facts.resolution id := by
  have hafter := fun other => (Tree.not_mem_enter hwell hevents other).2
  rw [hevents, run_append, run_cons]
  exact ⟨declared_run_of_not_mem hafter, resolution_run_of_not_mem hafter⟩

theorem facts_unset :
    (run (.start builtins) before).facts.declared id = none ∧
      (run (.start builtins) before).facts.resolution id = none := by
  have hbefore := fun other => (Tree.not_mem_enter hwell hevents other).1
  rw [declared_run_of_not_mem hbefore, resolution_run_of_not_mem hbefore, State.start_facts]
  exact ⟨rfl, rfl⟩

theorem declared_eq_none (hdeclares : node.label.declares? = none) :
    (run (.start builtins) tree.events).facts.declared id = none := by
  rw [(facts_settled hwell builtins hevents).1, ← (facts_unset hwell builtins hevents).1]
  cases huses : node.label.uses? with
  | some name =>
    rw [enter_use _ id huses]
    exact declared_resolve _ _ _
  | none => exact (keepsNames_enter_silent hdeclares huses).declared id

theorem resolution_eq_none (huses : node.label.uses? = none) :
    (run (.start builtins) tree.events).facts.resolution id = none := by
  rw [(facts_settled hwell builtins hevents).2, ← (facts_unset hwell builtins hevents).2]
  cases hdeclares : node.label.declares? with
  | some decl =>
    rw [(keepsNames_enter_declaration hdeclares).resolution]
    exact resolution_declareUnique _ _ _
  | none => exact (keepsNames_enter_silent hdeclares huses).resolution id

theorem declared_declaration {decl : Declaration} (hdeclares : node.label.declares? = some decl)
    {scope : ScopeId} (htop : (run (.start builtins) before).top = some scope) :
    (run (.start builtins) tree.events).facts.declared id =
      if (run (.start builtins) before).symbols.lookupLocal decl.name scope = none then
        some (run (.start builtins) before).symbols.size
      else none := by
  have hsound := sound_run (State.sound_start builtins) before
  rw [(facts_settled hwell builtins hevents).1,
    (keepsNames_enter_declaration hdeclares).declared, ← hsound.lookupLocal_eq htop]
  cases hlookup : (run (.start builtins) before).lookupLocal
      (run (.start builtins) before).function decl.name with
  | some earlier =>
    rw [declareUnique_duplicate hlookup]
    exact (facts_unset hwell builtins hevents).1
  | none =>
    obtain ⟨slot, -, heq⟩ := @exists_declareUnique_eq _ id node.line _ _ hlookup htop
    rw [heq, if_pos rfl]
    exact (NodeFacts.declared_recordDeclaration ..).trans (if_pos rfl)

theorem symbol_declaration {decl : Declaration} (hdeclares : node.label.declares? = some decl)
    {scope : ScopeId} (htop : (run (.start builtins) before).top = some scope) {new : SymbolId}
    (hnew : (run (.start builtins) tree.events).facts.declared id = some new) :
    ∃ symbol, (run (.start builtins) tree.events).symbols.get? new = some symbol ∧
      symbol.toDefinition = ⟨decl.name, decl.kind, decl.type, node.line, .node id⟩ ∧
        symbol.scope = scope := by
  have hsound := sound_run (State.sound_start builtins) before
  rw [declared_declaration hwell builtins hevents hdeclares htop,
    ← hsound.lookupLocal_eq htop] at hnew
  split at hnew
  · rename_i hlookup
    obtain ⟨slot, -, heq⟩ := @exists_declareUnique_eq _ id node.line _ _ hlookup htop
    have hsymbol := @SymbolTable.get?_declare (run (.start builtins) before).symbols scope slot
      ⟨decl.name, decl.kind, decl.type, node.line, .node id⟩ new
    rw [if_pos (Option.some.inj hnew).symm] at hsymbol
    have hgrows : (step (run (.start builtins) before) (.enter id node)).symbols.Extends
        (run (.start builtins) tree.events).symbols := by
      have hwalk : tree.events = (before ++ [.enter id node]) ++ after := by simp [hevents]
      rw [← run_concat]
      exact (grows_rest hwalk).symbols
    rw [(keepsNames_enter_declaration hdeclares).symbols, heq] at hgrows
    obtain ⟨newer, hnewer, hdefinition, hscope⟩ := hgrows new _ hsymbol
    exact ⟨newer, hnewer, hdefinition, hscope⟩
  · cases hnew

end Settled

end Resolution

end ScopeCheck
