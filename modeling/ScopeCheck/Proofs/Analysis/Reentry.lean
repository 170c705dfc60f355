import ScopeCheck.Proofs.Analysis.ExpressionTypes
import ScopeCheck.Proofs.Analysis.FunctionBody

namespace ScopeCheck

namespace State

/-- Two states that are at the same place of a program. -/
structure SamePlace (state other : State) : Prop where
  scopes : other.active.scopes = state.active.scopes
  function : other.function = state.function
  blockEntry : other.blockEntry = state.blockEntry

/-- Just the global scope is active, and no function waits for its body. -/
structure AtRest (state : State) : Prop where
  scopes : state.active.scopes = [State.global]
  blockEntry : state.blockEntry = .fresh

namespace SamePlace

variable {state other next : State} {scope : ScopeId}

theorem scopeName_eq (hsound : next.Sound) (htop : next.top = some scope)
    (hgrows : next.scopes.Extends other.scopes) : other.scopeName scope = next.function := by
  have hname := hgrows.name?_eq scope (hsound.lt_size scope htop)
  rw [hsound.current scope htop, ScopeTable.name?] at hname
  rw [scopeName, hname]
  rfl

theorem push (h : SamePlace state other) (hsound : next.Sound)
    (hgrows : next.scopes.Extends other.scopes)
    (hscopes : next.active.scopes = scope :: state.active.scopes) :
    SamePlace next ((other.push scope).expect next.blockEntry) where
  scopes := by rw [expect_active, push_active, ActiveScopes.scopes_push, h.scopes, hscopes]
  function := by
    have htop : next.top = some scope := by rw [State.top_eq_head?, hscopes, List.head?_cons]
    exact scopeName_eq hsound htop hgrows
  blockEntry := rfl

theorem pop (h : SamePlace state other) (hsound : state.pop.Sound)
    (hgrows : state.scopes.Extends other.scopes) (hrest : state.active.scopes.tail ≠ []) :
    SamePlace state.pop other.pop where
  scopes := by simp [h.scopes]
  function := by
    obtain ⟨top, htop⟩ : ∃ top, state.pop.top = some top := by
      apply Option.ne_none_iff_exists'.mp
      rw [State.top_eq_head?, pop_active, ActiveScopes.scopes_pop]
      exact mt List.head?_eq_none_iff.mp hrest
    have hother : other.active.pop.top = some top := by
      rw [ActiveScopes.top_eq_head?, ActiveScopes.scopes_pop, h.scopes, ← ActiveScopes.scopes_pop,
        ← pop_active, ← ActiveScopes.top_eq_head?]
      exact htop
    have hsame : state.pop.scopes = state.scopes := by
      obtain ⟨active, function, hpop⟩ := state.pop_frame
      rw [hpop]
    have hname : other.scopeName top = state.pop.function :=
      scopeName_eq hsound htop (hsame ▸ hgrows)
    simp only [State.pop, hother]
    exact hname
  blockEntry := by simp [h.blockEntry]

end SamePlace

end State

namespace Typing

open State (SamePlace)

variable {tree : Tree} {builtins : Bool} {before : List Event} {id : NodeId} {node : Node}
  {state : TypingState}

theorem extends_of_earlier (hbefore : before <+: tree.events)
    (hsame : SameNames (Resolution.run (.start builtins) tree.events) state.base) :
    (Resolution.run (.start builtins) before).scopes.Extends state.base.scopes := by
  obtain ⟨after, hevents⟩ := hbefore
  rw [hsame.scopes]
  exact (Resolution.grows_rest hevents.symm).scopes

theorem samePlace_enter_function (hwell : tree.WellLinked) (hshaped : tree.forest.Shaped)
    (hwalk : before ++ [.enter id node] <+: tree.events)
    (hsame : SameNames (Resolution.run (.start builtins) tree.events) state.base)
    (h : SamePlace (Resolution.run (.start builtins) before) state.base)
    (hfunction : node.label.isFunction) :
    ∃ next, step tree state (.enter id node) = .ok next ∧
      SamePlace (Resolution.run (.start builtins) (before ++ [.enter id node])) next.base := by
  obtain ⟨body, hchild, hscope⟩ :=
    Resolution.scopeOf_body hwell hshaped builtins hwalk hfunction
  have hbody : state.base.facts.scopeOf body =
      some (Resolution.run (.start builtins) before).scopes.size := by
    rw [hsame.scopeOf_eq, hscope]
  obtain ⟨enclosing, hstep⟩ := enter_function tree state id hfunction hchild hbody
  obtain ⟨hentry, hscopes⟩ :=
    Resolution.enter_function_opens (Resolution.run (.start builtins) before) id hfunction
  have hsound := Resolution.sound_run (State.sound_start builtins) (before ++ [.enter id node])
  have hgrows := extends_of_earlier hwalk hsame
  rw [Resolution.run_concat] at hsound hgrows ⊢
  have hpush := h.push hsound hgrows hscopes
  rw [hentry] at hpush
  exact ⟨_, hstep, hpush⟩

theorem samePlace_enter_block (hwell : tree.WellLinked)
    (hwalk : before ++ [.enter id node] <+: tree.events)
    (hsame : SameNames (Resolution.run (.start builtins) tree.events) state.base)
    (h : SamePlace (Resolution.run (.start builtins) before) state.base)
    (hblock : node.label.isBlock) :
    ∃ next, step tree state (.enter id node) = .ok next ∧
      SamePlace (Resolution.run (.start builtins) (before ++ [.enter id node])) next.base := by
  have hsound := Resolution.sound_run (State.sound_start builtins) (before ++ [.enter id node])
  have hgrows := extends_of_earlier hwalk hsame
  obtain ⟨after, hevents⟩ := hwalk
  rw [List.append_assoc, List.singleton_append] at hevents
  have hscope := Resolution.scopeOf_block hwell builtins hevents.symm hblock
  rw [Resolution.run_concat] at hsound hgrows ⊢
  cases hentry : (Resolution.run (.start builtins) before).blockEntry with
  | reuse =>
    -- The function has made the scope active, in both passes.
    obtain ⟨facts, hnext⟩ := Resolution.enterBlock_reuse id hentry
    have hstep := enter_reusing_block tree state id hblock (h.blockEntry.trans hentry)
    refine ⟨_, hstep, ?_⟩
    simp only [Resolution.step, Resolution.enter, Label.eq_block hblock, hnext]
    exact ⟨h.scopes, h.function, rfl⟩
  | fresh =>
    have hfound : state.base.facts.scopeOf id =
        some (Resolution.run (.start builtins) before).scopes.size := by
      rw [hsame.scopeOf_eq, hscope, Resolution.blockScope, hentry]
    have hstep := enter_fresh_block tree state id hblock (h.blockEntry.trans hentry) hfound
    obtain ⟨facts, hnext⟩ := Resolution.enterBlock_fresh id hentry
    have hevent : Resolution.step (Resolution.run (.start builtins) before) (.enter id node) =
        { (Resolution.run (.start builtins) before).openScope .block with facts } := by
      simp only [Resolution.step, Resolution.enter, Label.eq_block hblock, hnext]
    rw [hevent] at hsound hgrows ⊢
    have hopened : ((Resolution.run (.start builtins) before).openScope .block).active.scopes =
        (Resolution.run (.start builtins) before).scopes.size ::
          (Resolution.run (.start builtins) before).active.scopes := rfl
    have hpush := h.push hsound hgrows hopened
    exact ⟨_, hstep, hpush.scopes, hpush.function, h.blockEntry⟩

theorem samePlace_leave (hshaped : tree.forest.Shaped)
    (hwalk : before ++ [.leave id node] <+: tree.events)
    (hsame : SameNames (Resolution.run (.start builtins) tree.events) state.base)
    (h : SamePlace (Resolution.run (.start builtins) before) state.base) :
    SamePlace (Resolution.run (.start builtins) (before ++ [.leave id node]))
      (leave tree state id node).base := by
  rw [Resolution.run_concat]
  by_cases hfunction : node.label.isFunction
  · have hentry := Resolution.blockEntry_of_leave hshaped builtins hwalk hfunction
    obtain ⟨⟨kind, name, type, size⟩, hdecl, rfl⟩ := Label.exists_declaration hfunction
    rw [leave_function tree state id hfunction]
    simp only [Resolution.step, Resolution.leave, hdecl, Resolution.leaveFunction, hentry]
    exact h
  by_cases hblock : node.label.isBlock
  · -- The global scope stays, so there is a scope that the current function is named after.
    have hrest : (Resolution.run (.start builtins) before).active.scopes.tail ≠ [] := by
      have hsuffix := Resolution.global_suffix builtins hwalk
      rw [Resolution.run_concat,
        (Resolution.leave_block _ id hblock).2] at hsuffix
      intro hnil
      rw [hnil] at hsuffix
      cases List.suffix_nil.mp hsuffix
    have hsound := Resolution.sound_run (State.sound_start builtins) before
    rw [leave_block tree state id hblock]
    simp only [Resolution.step, Resolution.leave, Label.eq_block hblock]
    exact h.pop hsound.pop (extends_of_earlier ((List.prefix_append _ _).trans hwalk) hsame) hrest
  · rw [Resolution.step_leave_other _ id (Label.opening?_eq_none hfunction hblock),
      leave_other tree state id hfunction hblock, record_eq]
    exact ⟨h.scopes, h.function, h.blockEntry⟩

/-- What brings the first pass from one place to the next brings the second one there as well. -/
theorem samePlace_step (hwell : tree.WellLinked) (hshaped : tree.forest.Shaped) {event : Event}
    (hwalk : before ++ [event] <+: tree.events)
    (hsame : SameNames (Resolution.run (.start builtins) tree.events) state.base)
    (h : SamePlace (Resolution.run (.start builtins) before) state.base) :
    ∃ next, step tree state event = .ok next ∧
      SamePlace (Resolution.run (.start builtins) (before ++ [event])) next.base := by
  cases event with
  | leave id node => exact ⟨_, rfl, samePlace_leave hshaped hwalk hsame h⟩
  | enter id node =>
    by_cases hfunction : node.label.isFunction
    · exact samePlace_enter_function hwell hshaped hwalk hsame h hfunction
    by_cases hblock : node.label.isBlock
    · exact samePlace_enter_block hwell hwalk hsame h hblock
    have hopening : node.label.opening? = none := Label.opening?_eq_none hfunction hblock
    obtain ⟨hentry, hscopes⟩ :=
      Resolution.enter_other (Resolution.run (.start builtins) before) id hopening
    refine ⟨state, enter_other tree state id hfunction hblock, ?_⟩
    rw [Resolution.run_concat]
    exact ⟨h.scopes.trans hscopes.symm,
      h.function.trans (Resolution.enter_other_frame _ id hopening).2.symm,
      h.blockEntry.trans hentry.symm⟩

/-- The induction is on how far the walk has come. -/
theorem exists_samePlace (hwell : tree.WellLinked) (hshaped : tree.forest.Shaped)
    (hstart : SamePlace (.start builtins) (Resolution.run (.start builtins) tree.events))
    (hbefore : before <+: tree.events) :
    ∃ state, run tree ⟨Resolution.run (.start builtins) tree.events, none⟩ before = .ok state ∧
      SamePlace (Resolution.run (.start builtins) before) state.base := by
  induction before using List.reverseRecOn with
  | nil => exact ⟨_, rfl, hstart⟩
  | append_singleton before event ih =>
    obtain ⟨state, hstate, hplace⟩ := ih ((List.prefix_append _ _).trans hbefore)
    obtain ⟨next, hstep, hnext⟩ :=
      samePlace_step hwell hshaped hbefore (sameNames_run hstate) hplace
    refine ⟨next, ?_, hnext⟩
    rw [run_append_eq_ok]
    exact ⟨state, hstate, (run_cons_eq_ok tree).mpr ⟨next, hstep, rfl⟩⟩

end Typing

variable {tree : Tree}

theorem Resolution.atRest_run (hwell : tree.WellLinked) (builtins : Bool)
    (hleaks : tree.leakCount = 0) : (Resolution.run (.start builtins) tree.events).AtRest :=
  ⟨(balanced_run builtins hwell hleaks).2, (balanced_run builtins hwell hleaks).1⟩

theorem Resolution.samePlace_start (hwell : tree.WellLinked) (builtins : Bool)
    (hleaks : tree.leakCount = 0) :
    State.SamePlace (.start builtins) (Resolution.run (.start builtins) tree.events) := by
  obtain ⟨hscopes, hentry⟩ := atRest_run hwell builtins hleaks
  have hscopes' := hscopes.trans (State.start_active builtins).symm
  have hne : (State.start builtins).active.scopes ≠ [] := by
    rw [State.start_active]
    exact List.cons_ne_nil _ _
  exact ⟨hscopes', function_run_of_scopes (State.sound_start builtins) hscopes' hne,
    hentry.trans (State.start_blockEntry builtins).symm⟩

/-- In a tree as a parser builds it the second pass has the same scopes active as the first one after
every event of the walk, the same current function, and the same note for the next block; and both
come to rest. -/
theorem typing_follows_resolution {text : String} (h : Tree.ofText text = .ok tree)
    (hshaped : tree.FunctionShaped) (builtins : Bool) :
    ∃ resolved typed enclosing,
      resolveNames tree (.start builtins) = .ok () resolved ∧
      checkTypes tree resolved = .ok () typed ∧
      Resolution.run (.start builtins) tree.events = resolved ∧
      Typing.run tree ⟨resolved, none⟩ tree.events = .ok ⟨typed, enclosing⟩ ∧
      (∀ before, before <+: tree.events →
        ∃ state, Typing.run tree ⟨resolved, none⟩ before = .ok state ∧
          (Resolution.run (.start builtins) before).SamePlace state.base) ∧
      resolved.AtRest ∧ typed.AtRest := by
  have hwell := Tree.wellLinked_of_ofText h
  have hforest := hshaped.forest_shaped hwell
  have hleaks := Tree.leakCount_eq_zero hwell hforest
  have hrest := Resolution.atRest_run hwell builtins hleaks
  have hstart := Resolution.samePlace_start hwell builtins hleaks
  have hplaces := fun before (hbefore : before <+: tree.events) =>
    Typing.exists_samePlace hwell hforest hstart hbefore
  obtain ⟨last, hrun, hlast⟩ := hplaces tree.events (List.prefix_refl _)
  have htyped : last.base.AtRest :=
    ⟨hlast.scopes.trans hrest.scopes, hlast.blockEntry.trans hrest.blockEntry⟩
  have hdepth : last.base.depth = 1 := by
    rw [State.depth, ActiveScopes.depth_eq_length, htyped.scopes]
    rfl
  refine ⟨_, last.base, last.enclosing, ?_, ?_, rfl, hrun, hplaces, hrest, htyped⟩
  · rw [resolveNames_eq, Resolution.depth_run builtins hwell, if_pos (by omega)]
  · rw [checkTypes_of_run hrun, if_pos hdepth]

/-- A function with another function and a block in its body. -/
def layeredText : String :=
  "[0,[\x7b\"kind\":\"fun\",\"name\":\"f\",\"type\":\"void\",\"children\":[null,1]\x7d,"
    ++ "\x7b\"kind\":\"compound\",\"children\":[2,4]\x7d,"
    ++ "\x7b\"kind\":\"fun\",\"name\":\"g\",\"type\":\"void\",\"children\":[null,3]\x7d,"
    ++ "\x7b\"kind\":\"compound\"\x7d,"
    ++ "\x7b\"kind\":\"compound\",\"children\":[5]\x7d,"
    ++ "\x7b\"kind\":\"var\",\"name\":\"x\",\"type\":\"integer\"\x7d]]"

def layeredTree : Tree where
  nodes := #[
    ⟨.declaration ⟨.function, "f", .void, none⟩, 0, ⟨none, some 1, none⟩, none⟩,
    ⟨.statement .block, 0, ⟨some 2, some 4, none⟩, none⟩,
    ⟨.declaration ⟨.function, "g", .void, none⟩, 0, ⟨none, some 3, none⟩, none⟩,
    .leaf (.statement .block) 0,
    ⟨.statement .block, 0, ⟨some 5, none, none⟩, none⟩,
    .leaf (.declaration ⟨.variable, "x", .integer, none⟩) 0]
  root := some 0

theorem ofText_layeredText : Tree.ofText layeredText = .ok layeredTree :=
  Tree.ofText_eq_ok
    (ofList_append (ofList_append (ofList_append (ofList_append (ofList_append rfl rfl) rfl) rfl)
      rfl) rfl)
    (by decide +kernel)

theorem functionShaped_layeredTree : layeredTree.FunctionShaped := by
  intro id node _ hnode hfunction
  match id with
  | 1 | 3 | 4 | 5 =>
    cases hnode
    cases hfunction
  | 0 =>
    cases hnode
    exact ⟨fun item hitem => absurd hitem List.not_mem_nil, ⟨1, _, rfl, rfl, rfl, rfl⟩, rfl⟩
  | 2 =>
    cases hnode
    exact ⟨fun item hitem => absurd hitem List.not_mem_nil, ⟨3, _, rfl, rfl, rfl, rfl⟩, rfl⟩
  | id + 6 => cases hnode

/-- When the block is entered the inner function has been left, and the outer one is the current
one again. -/
theorem typing_layeredTree :
    Tree.ofText layeredText = .ok layeredTree ∧ layeredTree.FunctionShaped ∧
      ∃ before node resolved state, before ++ [.enter 4 node] <+: layeredTree.events ∧
        resolveNames layeredTree (.start true) = .ok () resolved ∧
        Typing.run layeredTree ⟨resolved, none⟩ (before ++ [.enter 4 node]) = .ok state ∧
        state.base.active.scopes = [3, 1, 0] ∧ state.base.function = "f" := by
  obtain ⟨resolved, typed, enclosing, hresolved, -, -, -, hplaces, -, -⟩ :=
    typing_follows_resolution ofText_layeredText functionShaped_layeredTree true
  have hprefix : layeredTree.events.take 6 ++
      [.enter 4 ⟨.statement .block, 0, ⟨some 5, none, none⟩, none⟩] <+: layeredTree.events := by
    decide
  obtain ⟨state, hstate, hplace⟩ := hplaces _ hprefix
  have hfirst : (Resolution.run (.start true) (layeredTree.events.take 6 ++
      [.enter 4 ⟨.statement .block, 0, ⟨some 5, none, none⟩, none⟩])).active.scopes = [3, 1, 0] ∧
        (Resolution.run (.start true) (layeredTree.events.take 6 ++
          [.enter 4 ⟨.statement .block, 0, ⟨some 5, none, none⟩, none⟩])).function = "f" := by
    decide +kernel
  exact ⟨ofText_layeredText, functionShaped_layeredTree, _, _, resolved, state, hprefix, hresolved,
    hstate, hplace.scopes.trans hfirst.1, hplace.function.trans hfirst.2⟩

end ScopeCheck
