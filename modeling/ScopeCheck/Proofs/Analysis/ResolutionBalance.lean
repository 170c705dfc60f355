import ScopeCheck.Proofs.Analysis.ResolutionStep

namespace ScopeCheck.Resolution

variable (state : State) (id : NodeId) {node : Node}

@[simp]
theorem declareUnique_scopes_active (line : UInt32) (decl : Declaration) :
    (declareUnique state id line decl).active.scopes = state.active.scopes := by
  simp only [declareUnique]
  split <;> simp

@[simp]
theorem declareUnique_blockEntry (line : UInt32) (decl : Declaration) :
    (declareUnique state id line decl).blockEntry = state.blockEntry := by
  simp only [declareUnique]
  split <;> simp

@[simp]
theorem declareUnique_scopes (line : UInt32) (decl : Declaration) :
    (declareUnique state id line decl).scopes = state.scopes := by
  simp only [declareUnique]
  split
  · rfl
  · simp

@[simp]
theorem declareUnique_function (line : UInt32) (decl : Declaration) :
    (declareUnique state id line decl).function = state.function := by
  simp only [declareUnique]
  split
  · rfl
  · simp

@[simp]
theorem resolve_active (line : UInt32) (name : String) :
    (resolve state id line name).active = state.active := by
  simp only [resolve]
  split <;> rfl

@[simp]
theorem resolve_blockEntry (line : UInt32) (name : String) :
    (resolve state id line name).blockEntry = state.blockEntry := by
  simp only [resolve]
  split <;> rfl

@[simp]
theorem resolve_scopes (line : UInt32) (name : String) :
    (resolve state id line name).scopes = state.scopes := by
  simp only [resolve]
  split <;> rfl

@[simp]
theorem resolve_function (line : UInt32) (name : String) :
    (resolve state id line name).function = state.function := by
  simp only [resolve]
  split <;> rfl

theorem enter_function_opens (h : node.label.isFunction) :
    (step state (.enter id node)).blockEntry = .reuse ∧
      (step state (.enter id node)).active.scopes = state.scopes.size :: state.active.scopes := by
  obtain ⟨decl, hdecl, hkind⟩ := Label.exists_declaration h
  simp [step, enter, hdecl, enterDeclaration, hkind]

theorem enter_function (h : node.label.isFunction) :
    (step state (.enter id node)).blockEntry = .reuse ∧
      ∃ scope, (step state (.enter id node)).active.scopes = scope :: state.active.scopes :=
  ⟨(enter_function_opens state id h).1, _, (enter_function_opens state id h).2⟩

theorem leave_function (h : node.label.isFunction) :
    (step state (.leave id node)).blockEntry = .fresh ∧
      (step state (.leave id node)).active.scopes = state.floor := by
  obtain ⟨⟨kind, name, type, size⟩, hdecl, rfl⟩ := Label.exists_declaration h
  simp only [step, leave, hdecl, leaveFunction, State.floor]
  cases hentry : state.blockEntry with
  | fresh => simp [hentry]
  | reuse => simp [BlockEntry.settle]

theorem enter_block {state : State} (h : node.label.isBlock) (hfloor : state.floor ≠ []) :
    (step state (.enter id node)).blockEntry = .fresh ∧
      ∃ scope, (step state (.enter id node)).active.scopes = scope :: state.floor := by
  have hstep : step state (.enter id node) = enterBlock state id := by
    simp only [step, enter, Label.eq_block h]
  rw [hstep]
  rw [State.floor] at hfloor ⊢
  cases hentry : state.blockEntry with
  | fresh =>
    obtain ⟨facts, hblock⟩ := enterBlock_fresh id hentry
    rw [hblock]
    exact ⟨hentry, _, rfl⟩
  | reuse =>
    obtain ⟨facts, hblock⟩ := enterBlock_reuse id hentry
    rw [hblock]
    rw [hentry] at hfloor
    exact ⟨rfl, _, (List.cons_head_tail (List.ne_nil_of_tail_ne_nil hfloor)).symm⟩

theorem leave_block (h : node.label.isBlock) :
    (step state (.leave id node)).blockEntry = state.blockEntry ∧
      (step state (.leave id node)).active.scopes = state.active.scopes.tail := by
  simp [step, leave, Label.eq_block h]

theorem enter_other (h : node.label.opening? = none) :
    (step state (.enter id node)).blockEntry = state.blockEntry ∧
      (step state (.enter id node)).active.scopes = state.active.scopes := by
  rcases enter_other_cases state id h with ⟨decl, -, hstep⟩ | ⟨name, -, hstep⟩ | hstep
  · simp [hstep]
  · simp [hstep]
  · simp [hstep]

theorem enter_other_frame (h : node.label.opening? = none) :
    (step state (.enter id node)).scopes = state.scopes ∧
      (step state (.enter id node)).function = state.function := by
  rcases enter_other_cases state id h with ⟨decl, -, hstep⟩ | ⟨name, -, hstep⟩ | hstep
  · simp [hstep]
  · simp [hstep]
  · simp [hstep]

theorem step_leave_other (h : node.label.opening? = none) : step state (.leave id node) = state := by
  obtain ⟨label, line, children, sibling⟩ := node
  cases label with
  | statement stmt => cases stmt <;> simp_all [Label.opening?, step, leave]
  | expression expr => simp [step, leave]
  | declaration decl =>
    obtain ⟨kind, name, type, size⟩ := decl
    cases kind <;> simp_all [Label.opening?, step, leave]

theorem leave_other (h : node.label.opening? = none) :
    (step state (.leave id node)).blockEntry = state.blockEntry ∧
      (step state (.leave id node)).active.scopes = state.active.scopes := by
  rw [step_leave_other state id h]
  exact ⟨rfl, rfl⟩

/-- A part of a walk that restores the active scopes and never goes below their floor. -/
structure Settles (events : List Event) (leaks : Nat) : Prop where
  restores (state : State) (hfloor : state.floor ≠ []) :
    Restores (firstOpening events) leaks state (run state events)
  floor (state : State) (hfloor : state.floor ≠ []) (before : List Event)
    (hbefore : before <+: events) : state.floor <:+ (run state before).floor

namespace Settles

variable {events later : List Event} {leaks leaksLater : Nat}

theorem nil : Settles [] 0 where
  restores _ _ := ⟨rfl, [], rfl, fun _ => rfl, by simp⟩
  floor state _ before hbefore := by
    rw [List.prefix_nil.mp hbefore]
    exact List.suffix_refl _

theorem append (h : Settles events leaks) (hlater : Settles later leaksLater) :
    Settles (events ++ later) (leaks + leaksLater) where
  restores state hfloor := by
    have hfirst := h.restores state hfloor
    rw [run_append, firstOpening_append]
    exact hfirst.trans (hlater.restores _ (hfirst.floor_ne_nil hfloor))
  floor state hfloor before hbefore := by
    rcases prefix_append_cases hbefore with hbefore | ⟨between, hbetween, rfl⟩
    · exact h.floor state hfloor before hbefore
    · have hfirst := h.restores state hfloor
      rw [run_append]
      exact hfirst.suffix_floor.trans
        (hlater.floor _ (hfirst.floor_ne_nil hfloor) between hbetween)

variable (id : NodeId) {node : Node}

/-- Around a part of a walk the scopes below stay if entering keeps them and leaving restores them. -/
theorem around_of (opening : Option Opening) {total : Nat} (h : Settles events leaks)
    (hopening : firstOpening (.enter id node :: (events ++ [.leave id node])) = opening)
    (henter : ∀ state : State, state.floor ≠ [] →
      state.floor <:+ (step state (.enter id node)).floor)
    (hend : ∀ state last : State, state.floor ≠ [] →
      Restores (firstOpening events) leaks (step state (.enter id node)) last →
      Restores opening total state (step last (.leave id node))) :
    Settles (.enter id node :: (events ++ [.leave id node])) total := by
  have hnext : ∀ state : State, state.floor ≠ [] → (step state (.enter id node)).floor ≠ [] := by
    intro state hfloor heq
    have hsuffix := henter state hfloor
    rw [heq] at hsuffix
    exact hfloor (List.suffix_nil.mp hsuffix)
  have hrestores : ∀ state : State, state.floor ≠ [] → Restores opening total state
      (run state (.enter id node :: (events ++ [.leave id node]))) := by
    intro state hfloor
    rw [run_cons, run_append, run_cons, run_nil]
    exact hend state _ hfloor (h.restores _ (hnext state hfloor))
  refine ⟨fun state hfloor => hopening ▸ hrestores state hfloor, ?_⟩
  intro state hfloor before hbefore
  -- The walk has not started, is inside, is about to leave, or is over.
  rcases List.prefix_cons_iff.mp hbefore with rfl | ⟨between, rfl, hbetween⟩
  · exact List.suffix_refl _
  rcases prefix_append_cases hbetween with hbetween | ⟨last, hlast, rfl⟩
  · exact (henter state hfloor).trans (h.floor _ (hnext state hfloor) between hbetween)
  rcases List.prefix_cons_iff.mp hlast with rfl | ⟨nothing, rfl, hnothing⟩
  · rw [List.append_nil]
    exact (henter state hfloor).trans (h.restores _ (hnext state hfloor)).suffix_floor
  · rw [List.prefix_nil.mp hnothing]
    exact (hrestores state hfloor).suffix_floor

theorem around_other (h : Settles events leaks) (hnode : node.label.opening? = none) :
    Settles (.enter id node :: (events ++ [.leave id node])) leaks := by
  apply h.around_of id (firstOpening events)
  · simp [firstOpening_cons, firstOpening_append, Event.opening?, hnode]
  · intro state _
    obtain ⟨hentry, hscopes⟩ := enter_other state id hnode
    have hnext : (step state (.enter id node)).floor = state.floor := by
      rw [State.floor, State.floor, hentry, hscopes]
    exact hnext ▸ List.suffix_refl _
  · intro state last _ hkids
    obtain ⟨hentry, hscopes⟩ := enter_other state id hnode
    obtain ⟨hentry', hscopes'⟩ := leave_other last id hnode
    obtain ⟨leaked, hlength, hleaked, hkidsScopes⟩ := hkids.scopes
    rw [hentry, hscopes] at hkidsScopes
    exact ⟨by rw [hentry', hkids.blockEntry, hentry], leaked, hlength, hleaked,
      hscopes'.trans hkidsScopes⟩

theorem around_block (h : Settles events leaks) (hnode : node.label.isBlock) :
    Settles (.enter id node :: (events ++ [.leave id node])) leaks := by
  apply h.around_of id (some .block)
  · simp [firstOpening_cons, Event.opening?, Label.opening?_eq_block.mpr hnode]
  · intro state hfloor
    obtain ⟨hentry, scope, hscopes⟩ := enter_block id hnode hfloor
    have hnext : (step state (.enter id node)).floor = scope :: state.floor := by
      rw [State.floor, hentry, BlockEntry.settle_fresh, hscopes]
    rw [hnext]
    exact List.suffix_cons _ _
  · intro state last hfloor hkids
    obtain ⟨hentry, scope, hscopes⟩ := enter_block id hnode hfloor
    obtain ⟨hentry', hscopes'⟩ := leave_block last id hnode
    obtain ⟨leaked, hlength, -, hkidsScopes⟩ := hkids.scopes
    rw [hentry, BlockEntry.settle_fresh, hscopes] at hkidsScopes
    -- If a scope has leaked inside, that one is left instead of the scope of the block.
    obtain ⟨rest, hrest, htail⟩ := exists_tail_append leaked scope state.floor
    refine ⟨by rw [hentry', hkids.blockEntry, hentry]; simp, rest, hrest.trans hlength, by simp, ?_⟩
    rw [hscopes', hkidsScopes, htail]
    rfl

theorem around_function (h : Settles events leaks) (hnode : node.label.isFunction) :
    Settles (.enter id node :: (events ++ [.leave id node]))
      (leaks + if firstOpening events = some .function then 1 else 0) := by
  apply h.around_of id (some .function)
  · simp [firstOpening_cons, Event.opening?, Label.opening?_eq_function.mpr hnode]
  · intro state _
    obtain ⟨hentry, scope, hscopes⟩ := enter_function state id hnode
    have hnext : (step state (.enter id node)).floor = state.active.scopes := by
      rw [State.floor, hentry, hscopes]
      rfl
    rw [hnext]
    exact state.floor_suffix
  · intro state last _ hkids
    obtain ⟨hentry, scope, hscopes⟩ := enter_function state id hnode
    obtain ⟨hentry', hscopes'⟩ := leave_function last id hnode
    obtain ⟨leaked, hlength, hleaked, hkidsScopes⟩ := hkids.scopes
    have hkidsEntry := hkids.blockEntry
    rw [hentry] at hkidsEntry hkidsScopes
    rw [hscopes] at hkidsScopes
    refine ⟨by simp [hentry'], ?_⟩
    rw [hscopes', State.floor, hkidsEntry, hkidsScopes]
    -- Only a function that is entered before any block makes this one lose track of its scope.
    cases hfirst : firstOpening events with
    | none => exact ⟨[], by simp [← hlength, hleaked hfirst], by simp, by simp [hleaked hfirst]; rfl⟩
    | some opening =>
      cases opening with
      | block => exact ⟨leaked, by simp [hlength], by simp, by simp; rfl⟩
      | function => exact ⟨leaked ++ [scope], by simp [hlength], by simp, by simp⟩

theorem around (node : Node) (h : Settles events leaks) :
    Settles (.enter id node :: (events ++ [.leave id node]))
      (leaks + if node.label.isFunction ∧ firstOpening events = some .function then 1 else 0) := by
  by_cases hfun : node.label.isFunction
  · simpa only [hfun, true_and] using h.around_function id hfun
  · rw [if_neg fun hboth => hfun hboth.1]
    by_cases hblock : node.label.isBlock
    · exact h.around_block id hblock
    · exact h.around_other id (Label.opening?_eq_none hfun hblock)

end Settles

/-- A walk of a forest leaves one scope over for each function that leaks. -/
theorem settles_forest (forest : Forest) : Settles forest.events forest.leaking.length := by
  induction forest with
  | nil => exact Settles.nil
  | cons id node first second third rest ihFirst ihSecond ihThird ihRest =>
    have h := (((ihFirst.append ihSecond).append ihThird).around id node).append ihRest
    have hlength : (Forest.cons id node first second third rest).leaking.length =
        first.leaking.length + second.leaking.length + third.leaking.length
          + (if node.label.isFunction ∧
              firstOpening (first.events ++ second.events ++ third.events) = some .function
            then 1 else 0) + rest.leaking.length := by
      simp only [Forest.leaking, List.length_append]
      split <;> simp only [List.length_cons, List.length_nil] <;> omega
    rw [hlength]
    simpa [Forest.events_cons] using h

end ScopeCheck.Resolution
