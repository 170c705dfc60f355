import ScopeCheck.Proofs.Analysis.Counterpart

namespace ScopeCheck

variable {tree : Tree}

section Missing

variable (hwell : tree.WellLinked) (builtins : Bool) (hleaks : tree.leakCount = 0)

include hwell hleaks

theorem analyze_of_missingScope {line : UInt32}
    (h : tree.events.findSome? (Event.missingScope?
      (Resolution.run (.start builtins) tree.events).facts.scopeOf) = some line) :
    analyze builtins tree = .error (.missingBlockScope line) := by
  obtain ⟨id, node, hid, hnode, rfl⟩ := (Tree.findSome?_missingScope?_eq_some hwell
    fun _ _ hmem => Resolution.scopeOf_run builtins hwell hmem).mp h
  exact analyze_of_oddBody hwell builtins hleaks hid hnode

theorem exists_analyze_of_noMissingScope
    (h : tree.events.findSome? (Event.missingScope?
      (Resolution.run (.start builtins) tree.events).facts.scopeOf) = none) :
    ∃ model, analyze builtins tree = .ok model :=
  exists_analyze_of_blocks hwell builtins hleaks ((Tree.findSome?_missingScope?_eq_none hwell
    fun _ _ hmem => Resolution.scopeOf_run builtins hwell hmem).mp h)

end Missing

namespace Change

/-- The model of the second run, in terms of that of the first one. -/
structure Mirrors (change : Change) (tree : Tree) (model other : Model) : Prop where
  scopes : other.scopes = model.scopes.rename change.function
  symbols : other.symbols.symbols = change.onSymbols model.symbols.symbols
  facts : other.facts = model.facts.renumber change.number
  diagnostics : other.diagnostics.toList = (model.complaints tree).map fun (id, diagnostic) =>
    diagnostic.rename (change.node id)

variable {change : Change}

theorem events_rename (change : Change) (tree : Tree) :
    (tree.rename change.node).events = tree.events.map change.onEvent :=
  Tree.events_rename change.node tree

theorem missingScope?_onEvent (scopeOf : NodeId → Option ScopeId) (event : Event) :
    Event.missingScope? scopeOf (change.onEvent event) = Event.missingScope? scopeOf event := by
  cases event with
  | leave id node => rfl
  | enter id node =>
    simp only [onEvent, Event.mapNode, Event.missingScope?, Node.rename, Label.isFunction_rename]

namespace Relates

variable {state other : State} (h : change.Relates state other)

include h

theorem depth_eq : other.depth = state.depth := by
  rw [State.depth, State.depth, ActiveScopes.depth_eq_length, ActiveScopes.depth_eq_length,
    h.active_scopes]

theorem missingScope?_eq (events : List Event) :
    (events.map change.onEvent).findSome? (Event.missingScope? other.facts.scopeOf) =
      events.findSome? (Event.missingScope? state.facts.scopeOf) := by
  have hscopeOf : other.facts.scopeOf = state.facts.scopeOf := by
    rw [h.facts]
    rfl
  rw [List.findSome?_map, hscopeOf]
  congr 1
  funext event
  exact missingScope?_onEvent _ event

theorem alike {model model' : Model} (hsymbols : model.symbols = state.symbols)
    (hsymbols' : model'.symbols = other.symbols)
    (hresolution : ∀ id, model.facts.resolution id = state.facts.resolution id)
    (hresolution' : ∀ id, model'.facts.resolution id = other.facts.resolution id)
    (hdeclared : ∀ id, model.facts.declared id = state.facts.declared id)
    (hdeclared' : ∀ id, model'.facts.declared id = other.facts.declared id) :
    model.Alike model' where
  role id := by
    rw [Model.roleAt, Model.roleAt, Model.symbolAt, Model.symbolAt, hsymbols, hsymbols',
      hresolution, hresolution', h.facts, NodeFacts.resolution_renumber]
    cases state.facts.resolution id with
    | none => rfl
    | some symbol =>
      simp only [Option.map_some, Option.bind_some, SymbolTable.get?, h.symbols,
        getElem?_onSymbols, Option.map_map]
      rfl
  resolution id := by
    rw [hresolution, hresolution', h.facts, NodeFacts.resolution_renumber, Option.map_eq_none_iff]
  declared id := by
    rw [hdeclared, hdeclared', h.facts, NodeFacts.declared_renumber, Option.map_eq_none_iff]

end Relates

section Outcome

variable {builtins builtins' : Bool} (hwell : tree.WellLinked)
  (hnames : tree.RenamesFunctions change.node change.function)
  (h : change.Relates (Resolution.run (.start builtins) tree.events)
    (Resolution.run (.start builtins') (tree.rename change.node).events))

include hwell hnames h

theorem mirrors_of_typing {typed typed' : TypingState}
    (hrun : Typing.run tree ⟨Resolution.run (.start builtins) tree.events, none⟩ tree.events =
      .ok typed)
    (hrun' : Typing.run (tree.rename change.node)
      ⟨Resolution.run (.start builtins') (tree.rename change.node).events, none⟩
      (tree.rename change.node).events = .ok typed') :
    change.Mirrors tree typed.base.toModel typed'.base.toModel := by
  have hwell' : (tree.rename change.node).WellLinked := Tree.wellLinked_rename hwell
  have hsame := Typing.sameNames_run hrun
  have hsame' := Typing.sameNames_run hrun'
  have halike : typed.base.toModel.Alike typed'.base.toModel :=
    h.alike hsame.symbols hsame'.symbols hsame.resolution_eq hsame'.resolution_eq hsame.declared_eq
      hsame'.declared_eq
  have htypes : typed'.base.facts.types = typed.base.facts.types := by
    have hstart : (Resolution.run (.start builtins') (tree.rename change.node).events).facts.types =
        (Resolution.run (.start builtins) tree.events).facts.types := by
      rw [h.facts]
      rfl
    rw [Typing.types_run hwell hrun (List.prefix_refl _) hrun,
      Typing.types_run hwell' hrun' (List.prefix_refl _) hrun', hstart, halike.addType_rename,
      Tree.events_rename, Event.leftIds_mapNode]
  refine ⟨?_, ?_, ?_, ?_⟩
  · exact hsame'.scopes.trans (h.scopes.trans (congrArg _ hsame.scopes.symm))
  · show typed'.base.symbols.symbols = change.onSymbols typed.base.symbols.symbols
    rw [hsame.symbols, hsame'.symbols, h.symbols]
  · apply NodeFacts.eq_renumber
    · exact htypes
    · exact hsame'.blocks.trans (h.facts ▸ hsame.blocks.symm)
    · show typed'.base.facts.resolutions = typed.base.facts.resolutions.map change.number
      rw [hsame'.resolutions, h.facts, hsame.resolutions]
      rfl
    · show typed'.base.facts.declarations = typed.base.facts.declarations.map change.number
      rw [hsame'.declarations, h.facts, hsame.declarations]
      rfl
  · show typed'.base.diagnostics.toList = _
    rw [Typing.diagnostics_eq_complaints hwell' hrun', halike.complaints_rename hnames htypes,
      List.map_map]
    rfl

/-- Both analyses fail for the same reason, or both come to a result. -/
theorem outcome_cases :
    (∃ error, analyze builtins tree = .error error ∧
      analyze builtins' (tree.rename change.node) = .error error) ∨
    ∃ model other, analyze builtins tree = .ok model ∧
      analyze builtins' (tree.rename change.node) = .ok other ∧ change.Mirrors tree model other := by
  have hwell' : (tree.rename change.node).WellLinked := Tree.wellLinked_rename hwell
  have hleaks : (tree.rename change.node).leakCount = tree.leakCount := by
    have hdepth := h.depth_eq
    rw [Resolution.depth_run builtins hwell, Resolution.depth_run builtins' hwell'] at hdepth
    omega
  -- The first pass leaves as many scopes over, and the same bodies without a scope.
  have hmissing := h.missingScope?_eq tree.events
  rw [← events_rename] at hmissing
  by_cases hzero : tree.leakCount = 0
  · cases hfind : tree.events.findSome? (Event.missingScope?
        (Resolution.run (.start builtins) tree.events).facts.scopeOf) with
    | some line =>
      exact .inl ⟨_, analyze_of_missingScope hwell builtins hzero hfind,
        analyze_of_missingScope hwell' builtins' (hleaks.trans hzero) (hmissing.trans hfind)⟩
    | none =>
      obtain ⟨model, hend⟩ := exists_analyze_of_noMissingScope hwell builtins hzero hfind
      obtain ⟨other, hend'⟩ := exists_analyze_of_noMissingScope hwell' builtins'
        (hleaks.trans hzero) (hmissing.trans hfind)
      obtain ⟨-, typed, hrun, -, rfl⟩ := analyze_eq_ok_iff.mp hend
      obtain ⟨-, typed', hrun', -, rfl⟩ := analyze_eq_ok_iff.mp hend'
      exact .inr ⟨_, _, hend, hend', mirrors_of_typing hwell hnames h hrun hrun'⟩
  · have hend' := analyze_of_leaks hwell' builtins' (hleaks ▸ hzero)
    rw [hleaks] at hend'
    exact .inl ⟨_, analyze_of_leaks hwell builtins hzero, hend'⟩

theorem analyze_eq_error_iff {error : AnalysisError} :
    analyze builtins' (tree.rename change.node) = .error error ↔
      analyze builtins tree = .error error := by
  rcases outcome_cases hwell hnames h with ⟨_, hend, hend'⟩ | ⟨_, _, hend, hend', -⟩
  · rw [hend, hend']
  · simp [hend, hend']

theorem exists_mirror {model : Model} (hmodel : analyze builtins tree = .ok model) :
    ∃ other, analyze builtins' (tree.rename change.node) = .ok other ∧
      change.Mirrors tree model other := by
  rcases outcome_cases hwell hnames h with ⟨_, hend, -⟩ | ⟨found, other, hend, hend', hmirrors⟩
  · rw [hend] at hmodel
    cases hmodel
  · rw [hend] at hmodel
    cases hmodel
    exact ⟨other, hend', hmirrors⟩

end Outcome

end Change

end ScopeCheck
