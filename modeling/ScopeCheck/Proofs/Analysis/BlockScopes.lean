import ScopeCheck.Proofs.Analysis.ResolutionBalance

namespace ScopeCheck.Resolution

variable {state : State} {id : NodeId} {node : Node}

def blockScope (state : State) : Option ScopeId :=
  match state.blockEntry with
  | .reuse => state.top
  | .fresh => some state.scopes.size

theorem scopeOf_enter_block (other : NodeId) (h : node.label.isBlock) :
    (step state (.enter id node)).facts.scopeOf other =
      if id = other ∧ state.facts.scopeOf id = none then blockScope state
      else state.facts.scopeOf other := by
  obtain ⟨label, line, children, sibling⟩ := node
  obtain rfl : label = .statement .block := by simpa [Label.isBlock] using h
  simp only [step, enter, enterBlock, blockScope]
  cases hentry : state.blockEntry with
  | fresh => exact NodeFacts.scopeOf_bindScope ..
  | reuse =>
    simp only
    split
    · rename_i htop
      rw [show state.top = none from htop]
      split
      · rename_i h
        rw [← h.1]
        exact h.2
      · rfl
    · rename_i scope htop
      rw [show state.top = some scope from htop]
      exact NodeFacts.scopeOf_bindScope ..

theorem scopeOf_enter_other (other : NodeId) (h : ¬ node.label.isBlock) :
    (step state (.enter id node)).facts.scopeOf other = state.facts.scopeOf other := by
  obtain ⟨label, line, children, sibling⟩ := node
  have hunique : ∀ decl : Declaration,
      (declareUnique state id line decl).facts.scopeOf other = state.facts.scopeOf other := by
    intro decl
    simp only [declareUnique]
    split
    · rfl
    · simp
  cases label with
  | statement stmt => cases stmt <;> simp_all [Label.isBlock, step, enter]
  | expression expr =>
    simp only [step, enter]
    split
    · rfl
    · simp only [resolve]
      split <;> rfl
  | declaration decl =>
    simp only [step, enter, enterDeclaration]
    split
    · exact hunique decl
    · rfl
    · exact hunique decl

@[simp]
theorem facts_leave : (step state (.leave id node)).facts = state.facts := by
  simp only [step, leave]
  split
  · simp
  · simp only [leaveFunction]
    split <;> simp [State.expect]
  · rfl

theorem scopeOf_step_of_ne (event : Event) (other : NodeId)
    (hne : ∀ node, event ≠ .enter other node) :
    (step state event).facts.scopeOf other = state.facts.scopeOf other := by
  cases event with
  | leave id node => rw [facts_leave]
  | enter id node =>
    by_cases hblock : node.label.isBlock
    · rw [scopeOf_enter_block other hblock, if_neg]
      rintro ⟨rfl, -⟩
      exact hne node rfl
    · rw [scopeOf_enter_other other hblock]

theorem scopeOf_run_of_not_mem {events : List Event} {other : NodeId}
    (hother : ∀ node, .enter other node ∉ events) :
    (run state events).facts.scopeOf other = state.facts.scopeOf other :=
  run_of_not_mem (fun state => state.facts.scopeOf other)
    (fun _ event hne => scopeOf_step_of_ne event other hne) hother state

theorem top_enter_block (h : node.label.isBlock) :
    (step state (.enter id node)).top = blockScope state := by
  simp only [step, enter, Label.eq_block h, enterBlock, blockScope, State.top]
  cases hentry : state.blockEntry with
  | fresh => split <;> simp [ActiveScopes.top_eq_head?]
  | reuse => split <;> simp

theorem types_step (event : Event) : (step state event).facts.types = state.facts.types := by
  cases event with
  | leave other node => rw [facts_leave]
  | enter other node =>
    obtain ⟨label, line, children, sibling⟩ := node
    have hunique : ∀ decl : Declaration,
        (declareUnique state other line decl).facts.types = state.facts.types := by
      intro decl
      simp only [declareUnique]
      split
      · rfl
      · simp
    cases label with
    | statement stmt =>
      cases stmt with
      | ifThen | whileDo | ret => rfl
      | block =>
        simp only [step, enter, enterBlock]
        cases state.blockEntry with
        | fresh =>
          split
          · rfl
          · exact NodeFacts.types_bindScope ..
        | reuse =>
          split
          · rfl
          · exact NodeFacts.types_bindScope ..
    | expression expr =>
      simp only [step, enter]
      split
      · rfl
      · simp only [resolve]
        split <;> rfl
    | declaration decl =>
      simp only [step, enter, enterDeclaration]
      split
      · exact hunique decl
      · rfl
      · exact hunique decl

theorem typeOf_step (event : Event) :
    (step state event).facts.typeOf id = state.facts.typeOf id := by
  rw [NodeFacts.typeOf, NodeFacts.typeOf, types_step]

theorem typeOf_run (events : List Event) :
    (run state events).facts.typeOf id = state.facts.typeOf id := by
  induction events generalizing state with
  | nil => rfl
  | cons event events ih => rw [run_cons, ih, typeOf_step]

theorem isSome_scopeOf_step (event : Event) (hscopes : state.active.scopes ≠ []) :
    ((step state event).facts.scopeOf id).isSome ↔
      (state.facts.scopeOf id).isSome ∨ ∃ node, event = .enter id node ∧ node.label.isBlock := by
  cases event with
  | leave other node => simp
  | enter other node =>
    by_cases hblock : node.label.isBlock
    · rw [scopeOf_enter_block id hblock]
      by_cases heq : other = id
      · subst heq
        have hscope : (blockScope state).isSome := by
          simp only [blockScope, State.top, ActiveScopes.top_eq_head?]
          cases state.blockEntry with
          | fresh => rfl
          | reuse => simpa using hscopes
        by_cases hbound : state.facts.scopeOf other = none
        · simp [hbound, hscope, hblock]
        · simp [hbound, hblock, Option.isSome_iff_ne_none.mpr hbound]
      · simp [heq]
    · rw [scopeOf_enter_other id hblock]
      constructor
      · exact .inl
      · rintro (h | ⟨other, heq, hother⟩)
        · exact h
        · cases heq
          exact absurd hother hblock

theorem isSome_scopeOf_run {events : List Event}
    (hscopes : ∀ before, before <+: events → (run state before).active.scopes ≠ []) :
    ((run state events).facts.scopeOf id).isSome ↔ (state.facts.scopeOf id).isSome ∨
      ∃ node, .enter id node ∈ events ∧ node.label.isBlock := by
  induction events generalizing state with
  | nil => simp
  | cons event events ih =>
    have hhead : state.active.scopes ≠ [] := hscopes [] List.nil_prefix
    rw [run_cons, ih fun before hbefore => hscopes (event :: before)
      (List.cons_prefix_cons.mpr ⟨rfl, hbefore⟩), isSome_scopeOf_step event hhead]
    constructor
    · rintro ((h | ⟨node, rfl, hblock⟩) | ⟨node, hmem, hblock⟩)
      · exact .inl h
      · exact .inr ⟨node, by simp, hblock⟩
      · exact .inr ⟨node, List.mem_cons_of_mem _ hmem, hblock⟩
    · rintro (h | ⟨node, hmem, hblock⟩)
      · exact .inl (.inl h)
      · rcases List.mem_cons.mp hmem with rfl | hmem
        · exact .inl (.inr ⟨node, rfl, hblock⟩)
        · exact .inr ⟨node, hmem, hblock⟩

end ScopeCheck.Resolution
