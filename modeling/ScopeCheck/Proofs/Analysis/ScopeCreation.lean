import ScopeCheck.Proofs.Analysis.ScopePath
import ScopeCheck.Proofs.Analysis.ResolutionBalance
import ScopeCheck.Proofs.Scope.Children

namespace ScopeCheck

theorem State.Sound.parent_eq {state : State} (h : state.Sound) {top : ScopeId}
    {rest : List ScopeId} (hscopes : state.active.scopes = top :: rest) :
    state.scopes.parent top = rest.head? := by
  have htop : state.top = some top := by rw [State.top_eq_head?, hscopes, List.head?_cons]
  have hpath := h.path top htop
  rw [ScopeTable.ancestors_eq h.ordered (h.lt_size top htop), hscopes] at hpath
  obtain ⟨-, hrest⟩ := List.cons.inj hpath
  rw [← hrest]
  cases hparent : state.scopes.parent top with
  | none => rfl
  | some outer =>
    have hlt := h.ordered top outer hparent
    have hsize := Nat.lt_trans hlt (h.lt_size top htop)
    rw [ScopeTable.outward, Option.elim_some, ScopeTable.ancestors_eq h.ordered hsize,
      List.head?_cons]

namespace Resolution

variable {state : State} {id : NodeId} {node : Node}

theorem declareUnique_top (line : UInt32) (decl : Declaration) :
    (declareUnique state id line decl).top = state.top := by
  rw [State.top_eq_head?, State.top_eq_head?, declareUnique_scopes_active]

theorem enter_function_creates {decl : Declaration} (hlabel : node.label = .declaration decl)
    (hkind : decl.kind = .function) :
    (step state (.enter id node)).scopes = state.scopes.create .function decl.name state.top ∧
      (step state (.enter id node)).function = decl.name := by
  simp only [step, enter, hlabel, enterDeclaration, hkind]
  refine ⟨?_, rfl⟩
  simp only [State.expect, State.enterFunction, State.openScope]
  rw [declareUnique_scopes]
  congr 1
  exact declareUnique_top _ _

theorem enter_fresh_block_creates (id : NodeId) (hnode : node.label.isBlock)
    (hentry : state.blockEntry = .fresh) :
    (step state (.enter id node)).scopes = state.scopes.create .block state.function state.top := by
  obtain ⟨facts, hblock⟩ := enterBlock_fresh id hentry
  simp only [step, enter, Label.eq_block hnode, hblock]
  rfl

theorem enter_body_scopes (id : NodeId) (hnode : node.label.isBlock)
    (hentry : state.blockEntry = .reuse) : (step state (.enter id node)).scopes = state.scopes := by
  obtain ⟨facts, hblock⟩ := enterBlock_reuse id hentry
  simp only [step, enter, Label.eq_block hnode, hblock]
  rfl

theorem function_enter_block (id : NodeId) (hnode : node.label.isBlock) :
    (step state (.enter id node)).function = state.function := by
  cases hentry : state.blockEntry with
  | fresh =>
    obtain ⟨facts, hblock⟩ := enterBlock_fresh id hentry
    simp only [step, enter, Label.eq_block hnode, hblock]
    rfl
  | reuse =>
    obtain ⟨facts, hblock⟩ := enterBlock_reuse id hentry
    simp only [step, enter, Label.eq_block hnode, hblock]
    rfl

theorem leave_scopes : (step state (.leave id node)).scopes = state.scopes := by
  simp only [step, leave]
  split
  · obtain ⟨active, function, hpop⟩ := state.pop_frame
    rw [hpop]
  · simp only [leaveFunction]
    split
    · obtain ⟨active, function, hpop⟩ := (state.expect .fresh).pop_frame
      rw [hpop]
      rfl
    · rfl
  · rfl

/-- A scope that is created stands inside the innermost active one. -/
theorem scopes_step (state : State) (event : Event) :
    (step state event).scopes = state.scopes ∨
      ∃ kind name, (step state event).scopes = state.scopes.create kind name state.top := by
  cases event with
  | leave id node => exact .inl leave_scopes
  | enter id node =>
    by_cases hnode : node.label.isFunction
    · obtain ⟨decl, hlabel, hkind⟩ := Label.exists_declaration hnode
      exact .inr ⟨_, _, (enter_function_creates hlabel hkind).1⟩
    by_cases hblock : node.label.isBlock
    · cases hentry : state.blockEntry with
      | fresh => exact .inr ⟨_, _, enter_fresh_block_creates id hblock hentry⟩
      | reuse => exact .inl (enter_body_scopes id hblock hentry)
    · exact .inl (enter_other_frame state id (Label.opening?_eq_none hnode hblock)).1

theorem kind?_run {scope : Nat} (events : List Event) (h : scope < state.scopes.size) :
    (run state events).scopes.kind? scope = state.scopes.kind? scope := by
  induction events generalizing state with
  | nil => rfl
  | cons event events ih =>
    rw [run_cons]
    rcases scopes_step state event with hsame | ⟨kind, name, hcreated⟩
    · rw [ih (hsame ▸ h), hsame]
    · have hlt : scope < (step state event).scopes.size := by
        rw [hcreated, ScopeTable.size_create]
        omega
      rw [ih hlt, hcreated, ScopeTable.kind?_create, if_neg (Nat.ne_of_lt h)]

theorem linked_run (hsound : state.Sound) (h : state.scopes.Linked) (events : List Event) :
    (run state events).scopes.Linked := by
  induction events generalizing state with
  | nil => exact h
  | cons event events ih =>
    refine ih (sound_step hsound event) ?_
    rcases scopes_step state event with hsame | ⟨kind, name, hcreated⟩
    · rw [hsame]
      exact h
    · rw [hcreated]
      exact ScopeTable.linked_create h hsound.lt_size

end Resolution

end ScopeCheck
