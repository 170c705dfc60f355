import ScopeCheck.Proofs.Analysis.NameAccounting

namespace ScopeCheck

namespace State

/-- The symbols of each scope have the slots from zero on, and the frame of an active scope counts
them. -/
structure Slotted (state : State) : Prop where
  owned : ∀ id symbol, state.symbols.get? id = some symbol → symbol.scope < state.scopes.size
  dense : ∀ scope, state.symbols.Dense scope
  next : ∀ frame ∈ state.active.frames,
    frame.nextSlot = UInt32.ofNat (state.symbols.inScope frame.scope).length

namespace Slotted

variable {state later : State}

theorem of_same (h : state.Slotted) (hscopes : later.scopes = state.scopes)
    (hsymbols : later.symbols = state.symbols)
    (hframes : ∀ frame ∈ later.active.frames, frame ∈ state.active.frames) : later.Slotted where
  owned := by
    rw [hscopes, hsymbols]
    exact h.owned
  dense := by
    rw [hsymbols]
    exact h.dense
  next frame hframe := by
    rw [hsymbols]
    exact h.next frame (hframes frame hframe)

theorem pop (h : state.Slotted) : state.pop.Slotted := by
  obtain ⟨active, function, hpop⟩ := state.pop_frame
  refine h.of_same (by rw [hpop]) (by rw [hpop]) fun frame hframe => ?_
  rw [pop_active] at hframe
  exact List.mem_of_mem_tail hframe

theorem openNamed (h : state.Slotted) (name : String) (kind : ScopeKind) :
    (({ state with function := name } : State).openScope kind).Slotted where
  owned id symbol hsymbol := by
    simp only [openScope, ScopeTable.size_create]
    exact Nat.lt_succ_of_lt (h.owned id symbol hsymbol)
  dense := h.dense
  next frame hframe := by
    rcases List.mem_cons.mp hframe with rfl | hframe
    · have hnone : state.symbols.inScope state.scopes.size = [] := by
        refine List.eq_nil_iff_forall_not_mem.mpr fun id hid => ?_
        obtain ⟨symbol, hsymbol, hscope⟩ := SymbolTable.mem_inScope.mp hid
        exact absurd hscope (Nat.ne_of_lt (h.owned id symbol hsymbol))
      simp only [openScope, hnone]
      rfl
    · exact h.next frame hframe

theorem addReference (h : state.Slotted) (node : NodeId) (symbol : SymbolId) (line : UInt32) :
    (state.addReference node symbol line).Slotted where
  owned id found hfound := by
    have hlt := SymbolTable.get?_lt_size hfound
    rw [State.addReference, SymbolTable.size_addReference] at hlt
    obtain ⟨older, holder, -, hscope⟩ := SymbolTable.extends_addReference.exists_older hfound hlt
    exact hscope ▸ h.owned id older holder
  dense scope := SymbolTable.dense_addReference (h.dense scope)
  next frame hframe := by
    simp only [State.addReference, SymbolTable.inScope_addReference]
    exact h.next frame hframe

theorem declare (h : state.Slotted) (hsound : state.Sound) (node : Option NodeId)
    (definition : Definition) : (state.declare node definition).Slotted := by
  cases hframes : state.active.frames with
  | nil =>
    have htop : state.active.top = none := by rw [ActiveScopes.top, hframes]; rfl
    simp only [State.declare, htop]
    exact h
  | cons frame frames =>
    have htop : state.active.top = some frame.scope := by rw [ActiveScopes.top, hframes]; rfl
    have hslot : state.active.nextSlot = some frame.nextSlot := by
      rw [ActiveScopes.nextSlot, hframes]
      rfl
    have htake : state.active.takeSlot = ⟨{ frame with nextSlot := frame.nextSlot + 1 } :: frames⟩ := by
      rw [show state.active = ⟨frame :: frames⟩ from congrArg ActiveScopes.mk hframes]
      rfl
    have hnext := h.next frame (by simp [hframes])
    simp only [State.declare, htop, hslot]
    refine ⟨?_, fun other => SymbolTable.dense_declare (h.dense other) hnext, ?_⟩
    · intro id symbol hsymbol
      rw [SymbolTable.get?_declare] at hsymbol
      split at hsymbol
      · cases hsymbol
        exact hsound.lt_size frame.scope htop
      · exact h.owned id symbol hsymbol
    · intro other hother
      rw [htake] at hother
      rw [SymbolTable.inScope_declare]
      rcases List.mem_cons.mp hother with rfl | hother
      · simp [hnext]
      · -- No other frame is of the same scope.
        have hnodup := hsound.nodup_scopes
        rw [ActiveScopes.scopes, hframes, List.map_cons, List.nodup_cons] at hnodup
        have hne : frame.scope ≠ other.scope := by
          intro heq
          exact hnodup.1 (heq ▸ List.mem_map_of_mem hother)
        rw [if_neg hne, List.append_nil]
        exact h.next other (by simp [hframes, hother])

end Slotted

theorem slotted_start (builtins : Bool) : (start builtins).Slotted := by
  have hinitial : initial.Slotted := by
    refine ⟨nofun, fun scope => rfl, ?_⟩
    intro frame hframe
    obtain rfl := List.mem_singleton.mp hframe
    rfl
  have hsound : initial.Sound := sound_start false
  cases builtins with
  | false => exact hinitial
  | true => exact (hinitial.declare hsound none _).declare (hsound.declare none rfl) none _

end State

namespace Resolution

variable {state : State} {id : NodeId}

theorem slotted_declareUnique (h : state.Slotted) (hsound : state.Sound) (line : UInt32)
    (decl : Declaration) : (declareUnique state id line decl).Slotted := by
  simp only [declareUnique]
  split
  · exact h.of_same rfl rfl fun _ hframe => hframe
  · exact h.declare hsound _ _

theorem slotted_step (h : state.Slotted) (hsound : state.Sound) (event : Event) :
    (step state event).Slotted := by
  cases event with
  | leave id node =>
    simp only [step, leave]
    split
    · exact h.pop
    · simp only [leaveFunction]
      split
      · have hsettled : (state.expect .fresh).Slotted := h.of_same rfl rfl fun _ hframe => hframe
        exact hsettled.pop
      · exact h
    · exact h
  | enter id node =>
    simp only [step, enter]
    split
    · simp only [enterDeclaration]
      split
      · exact ((slotted_declareUnique h hsound _ _).openNamed _ .function).of_same rfl rfl
          fun _ hframe => hframe
      · exact h
      · exact slotted_declareUnique h hsound _ _
    · cases hentry : state.blockEntry with
      | fresh =>
        obtain ⟨facts, hblock⟩ := enterBlock_fresh id hentry
        rw [hblock]
        exact (h.openNamed state.function .block).of_same rfl rfl fun _ hframe => hframe
      | reuse =>
        obtain ⟨facts, hblock⟩ := enterBlock_reuse id hentry
        rw [hblock]
        exact h.of_same rfl rfl fun _ hframe => hframe
    · exact h
    · split
      · exact h
      · simp only [resolve]
        split
        · exact h.addReference _ _ _
        · exact h.of_same rfl rfl fun _ hframe => hframe

theorem slotted_run (h : state.Slotted) (hsound : state.Sound) (events : List Event) :
    (run state events).Slotted := by
  induction events generalizing state with
  | nil => exact h
  | cons event events ih => exact ih (slotted_step h hsound event) (sound_step hsound event)

/-- A walk gives less symbols than there are nodes and builtins. -/
theorem size_symbols_run_le {tree : Tree} (hwell : tree.WellLinked) (builtins : Bool) :
    (run (.start builtins) tree.events).symbols.size ≤ 2 + tree.size := by
  have haccounts := accounts_run hwell builtins (List.prefix_refl tree.events)
  have hlength := congrArg List.length haccounts.numbers
  have hstart : (State.start builtins).symbols.size ≤ 2 := by
    cases builtins <;> decide
  have hnodes : (tree.events.filterMap Event.entered?).length ≤ tree.size := by
    have hids := hwell.unfolds.length_ids_le hwell tree.continues_root
    rw [Forest.ids, List.length_map, Forest.entered, Tree.events_forest] at hids
    exact hids
  have hdeclared := List.length_filterMap_le
    (fun item : NodeId × Node => (run (.start builtins) tree.events).facts.declared item.1)
    (tree.events.filterMap Event.entered?)
  rw [List.length_append, List.length_range, List.length_range] at hlength
  omega

end Resolution

/-- What a model says about a declaration that is entered in a state whose innermost scope is
`scope`: it has a symbol of its own unless the scope has its name by then, and if so it changes
nothing about the symbol that is there. -/
structure Model.Declares (model : Model) (state : State) (scope : ScopeId) (id : NodeId)
    (node : Node) (decl : Declaration) : Prop where
  declared_iff : (∃ new, model.facts.declared id = some new) ↔
    ∀ earlier, ¬ state.symbols.Has decl.name scope earlier
  symbol : ∀ new, model.facts.declared id = some new →
    ∃ symbol, model.symbols.get? new = some symbol ∧ symbol.scope = scope ∧
      symbol.toDefinition = ⟨decl.name, decl.kind, decl.type, node.line, .node id⟩
  kept : ∀ earlier, state.symbols.Has decl.name scope earlier →
    (Resolution.step state (.enter id node)).symbols = state.symbols ∧
      model.symbols.lookupLocal decl.name scope = some earlier ∧
      ∀ older, state.symbols.get? earlier = some older →
        ∃ newer, model.symbols.get? earlier = some newer ∧
          newer.toDefinition = older.toDefinition ∧ newer.scope = older.scope

namespace Resolution

variable {tree : Tree} {id : NodeId} {node : Node} {before after : List Event}

theorem declares_toModel (hwell : tree.WellLinked) {builtins : Bool}
    (hevents : tree.events = before ++ .enter id node :: after) {decl : Declaration}
    (hdeclares : node.label.declares? = some decl) {scope : ScopeId}
    (htop : (run (.start builtins) before).top = some scope) {last : State}
    (hsame : Typing.SameNames (run (.start builtins) tree.events) last) :
    last.toModel.Declares (run (.start builtins) before) scope id node decl := by
  have hsound := sound_run (State.sound_start builtins) before
  have hend := sound_run (State.sound_start builtins) tree.events
  have hgrows : (run (.start builtins) before).symbols.Extends
      (run (.start builtins) tree.events).symbols := (grows_rest hevents).symbols
  have hdeclared : last.toModel.facts.declared id =
      (run (.start builtins) tree.events).facts.declared id := hsame.declared_eq id
  have hsymbols : last.toModel.symbols = (run (.start builtins) tree.events).symbols :=
    hsame.symbols
  have hnone : (run (.start builtins) before).symbols.lookupLocal decl.name scope = none ↔
      ∀ earlier, ¬ (run (.start builtins) before).symbols.Has decl.name scope earlier := by
    simp only [Option.eq_none_iff_forall_ne_some, ne_eq, hsound.indexed decl.name scope _]
  refine ⟨?_, ?_, ?_⟩
  · rw [hdeclared, declared_declaration hwell builtins hevents hdeclares htop, ← hnone]
    split
    · rename_i hlookup
      exact ⟨fun _ => hlookup, fun _ => ⟨_, rfl⟩⟩
    · rename_i hlookup
      refine iff_of_false ?_ hlookup
      rintro ⟨new, hnew⟩
      cases hnew
  · intro new hnew
    rw [hdeclared] at hnew
    obtain ⟨symbol, hsymbol, hdefinition, hscope⟩ :=
      symbol_declaration hwell builtins hevents hdeclares htop hnew
    exact ⟨symbol, hsymbols ▸ hsymbol, hscope, hdefinition⟩
  · intro earlier hhas
    have hlookup := (hsound.indexed decl.name scope earlier).mpr hhas
    rw [← hsound.lookupLocal_eq htop] at hlookup
    rw [hsymbols]
    refine ⟨?_, (hend.indexed decl.name scope earlier).mpr (hgrows.has hhas), hgrows earlier⟩
    rw [(keepsNames_enter_declaration hdeclares).symbols, declareUnique_duplicate hlookup]
    rfl

end Resolution

/-- In every scope the names are unique and the slots dense, and a declaration gives a symbol exactly
where its name is new. -/
theorem wellKept_of_analyze {text : String} {tree : Tree} (h : Tree.ofText text = .ok tree)
    (hsize : tree.size < 2 ^ 32 - 2) {builtins : Bool} {model : Model}
    (hmodel : analyze builtins tree = .ok model) :
    (∀ scope, model.symbols.WellKept scope) ∧
    (∀ id symbol, model.symbols.get? id = some symbol → symbol.scope < model.scopes.size) ∧
    ∀ id node decl, tree.Reachable id → tree.node? id = some node →
      node.label = .declaration decl → ¬ (decl.kind = .parameter ∧ decl.type = .void) →
        ∃ before after scope, tree.events = before ++ .enter id node :: after ∧
          (Resolution.run (.start builtins) before).top = some scope ∧
          model.Declares (Resolution.run (.start builtins) before) scope id node decl := by
  have hwell := Tree.wellLinked_of_ofText h
  obtain ⟨-, typed, hrun, -, rfl⟩ := analyze_eq_ok_iff.mp hmodel
  have hsame := Typing.sameNames_run hrun
  have hsymbols : typed.base.toModel.symbols =
      (Resolution.run (.start builtins) tree.events).symbols := hsame.symbols
  have hscopes : typed.base.toModel.scopes =
      (Resolution.run (.start builtins) tree.events).scopes := hsame.scopes
  have hend := Resolution.sound_run (State.sound_start builtins) tree.events
  have hslotted := Resolution.slotted_run (State.slotted_start builtins)
    (State.sound_start builtins) tree.events
  have hcount := Resolution.size_symbols_run_le hwell builtins
  have hfew : (Resolution.run (.start builtins) tree.events).symbols.size ≤ UInt32.size := by
    rw [show UInt32.size = 2 ^ 32 from rfl]
    omega
  rw [hsymbols, hscopes]
  refine ⟨fun scope => SymbolTable.wellKept hend.indexed (hslotted.dense scope) hfew,
    hslotted.owned, fun id node decl hid hnode hlabel hvoid => ?_⟩
  obtain ⟨before, after, hevents⟩ := List.append_of_mem (hwell.enter_mem_iff.mpr ⟨hid, hnode⟩)
  obtain ⟨scope, htop⟩ := Resolution.exists_top builtins (hevents ▸ List.prefix_append before _)
  have hdeclares : node.label.declares? = some decl := by
    rw [hlabel, Label.declares?, if_neg hvoid]
  exact ⟨before, after, scope, hevents, htop,
    Resolution.declares_toModel hwell hevents hdeclares htop hsame⟩

/-- The second declaration of the name gives no symbol, and the first one stays. -/
theorem wellKept_rivalTree :
    Tree.ofText rivalText = .ok rivalTree ∧ rivalTree.size < 2 ^ 32 - 2 ∧
      ∃ model, analyze true rivalTree = .ok model ∧ model.symbols.WellKept State.global ∧
        model.symbols.inScope State.global = [0, 1, 2] ∧ model.facts.declared 1 = none ∧
        model.symbols.lookupLocal "x" State.global = some 2 := by
  obtain ⟨model, hmodel⟩ : ∃ model, analyze true rivalTree = .ok model := ⟨_, rfl⟩
  have hsize : rivalTree.size < 2 ^ 32 - 2 := by decide
  obtain ⟨hkept, -, hdeclares⟩ := wellKept_of_analyze ofText_rivalText hsize hmodel
  have hwell := Tree.wellLinked_of_ofText ofText_rivalText
  have hsecond : Event.enter 1 ⟨.declaration ⟨.variable, "x", .array, none⟩, 2, .empty, some 2⟩ ∈
      rivalTree.events := by decide
  obtain ⟨hid, hnode⟩ := hwell.enter_mem_iff.mp hsecond
  obtain ⟨before, after, scope, hevents, htop, hdeclared⟩ :=
    hdeclares 1 _ _ hid hnode rfl (by decide)
  -- The walk has entered and left the first declaration by then.
  have htwo : rivalTree.events = rivalTree.events.take 2 ++
      .enter 1 ⟨.declaration ⟨.variable, "x", .array, none⟩, 2, .empty, some 2⟩ ::
        rivalTree.events.drop 3 := rfl
  obtain ⟨rfl, -⟩ := Tree.enter_unique hwell hevents htwo
  cases htop
  have hhas : (Resolution.run (.start true) (rivalTree.events.take 2)).symbols.Has "x" 0 2 :=
    ⟨_, rfl, rfl, rfl⟩
  refine ⟨ofText_rivalText, hsize, model, hmodel, hkept State.global, ?_, ?_,
    (hdeclared.kept 2 hhas).2.1⟩
  · cases hmodel
    rfl
  · cases hnew : model.facts.declared 1 with
    | none => rfl
    | some new => exact absurd hhas (hdeclared.declared_iff.mp ⟨new, hnew⟩ 2)

end ScopeCheck
