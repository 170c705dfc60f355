import ScopeCheck.Proofs.Analysis.Passes
import ScopeCheck.Proofs.Analysis.State

namespace ScopeCheck.Resolution

def reports (state : State) : Event → List Diagnostic
  | .leave .. => []
  | .enter _ node =>
    match node.label with
    | .statement _ => []
    | .declaration ⟨.parameter, _, .void, _⟩ => []
    | .declaration decl =>
      if state.lookupLocal state.function decl.name = none then []
      else [⟨node.line, .duplicateDeclaration decl.name⟩]
    | .expression expr =>
      match expr.name? with
      | none => []
      | some name =>
        if state.lookup name = none then [⟨node.line, .undeclaredIdentifier name⟩] else []

variable {state : State} {id : NodeId} {node : Node}

theorem diagnostics_declareUnique (line : UInt32) (decl : Declaration) :
    (declareUnique state id line decl).diagnostics.toList = state.diagnostics.toList ++
      if state.lookupLocal state.function decl.name = none then []
      else [⟨line, .duplicateDeclaration decl.name⟩] := by
  simp only [declareUnique]
  cases state.lookupLocal state.function decl.name with
  | none => simp
  | some symbol => simp [State.report]

theorem diagnostics_enterDeclaration (line : UInt32) (decl : Declaration) :
    (enterDeclaration state id line decl).diagnostics.toList = state.diagnostics.toList ++
      reports state (.enter id (.leaf (.declaration decl) line)) := by
  obtain ⟨kind, name, type, size⟩ := decl
  cases kind with
  | function => exact diagnostics_declareUnique line _
  | «variable» => exact diagnostics_declareUnique line _
  | parameter =>
    cases type with
    | void => exact (List.append_nil _).symm
    | integer | array => exact diagnostics_declareUnique line _

theorem diagnostics_enterBlock : (enterBlock state id).diagnostics = state.diagnostics := by
  cases hentry : state.blockEntry with
  | fresh =>
    obtain ⟨facts, hblock⟩ := enterBlock_fresh id hentry
    rw [hblock]
    rfl
  | reuse =>
    obtain ⟨facts, hblock⟩ := enterBlock_reuse id hentry
    rw [hblock]
    rfl

theorem diagnostics_resolve (line : UInt32) (name : String) :
    (resolve state id line name).diagnostics.toList = state.diagnostics.toList ++
      if state.lookup name = none then [⟨line, .undeclaredIdentifier name⟩] else [] := by
  simp only [resolve]
  cases state.lookup name with
  | none => simp [State.report]
  | some symbol => simp [State.addReference]

theorem diagnostics_leave : (leave state node).diagnostics = state.diagnostics := by
  simp only [leave]
  split
  · simp
  · simp only [leaveFunction]
    split
    · simp [State.expect]
    · rfl
  · rfl

theorem diagnostics_step (state : State) (event : Event) :
    (step state event).diagnostics.toList = state.diagnostics.toList ++ reports state event := by
  cases event with
  | leave id node => rw [step, diagnostics_leave, reports, List.append_nil]
  | enter id node =>
    obtain ⟨label, line, children, sibling⟩ := node
    cases label with
    | declaration decl => exact diagnostics_enterDeclaration line decl
    | statement stmt =>
      cases stmt with
      | block =>
        rw [reports, List.append_nil]
        exact congrArg Array.toList diagnostics_enterBlock
      | ifThen | whileDo | ret => exact (List.append_nil _).symm
    | expression expr =>
      simp only [step, enter, reports]
      cases expr.name? with
      | none => exact (List.append_nil _).symm
      | some name => exact diagnostics_resolve line name

theorem diagnostics_prefix_run (state : State) (events : List Event) :
    state.diagnostics.toList <+: (run state events).diagnostics.toList := by
  induction events generalizing state with
  | nil => exact List.prefix_refl _
  | cons event events ih =>
    have hstep : state.diagnostics.toList <+: (step state event).diagnostics.toList :=
      ⟨_, (diagnostics_step state event).symm⟩
    exact hstep.trans (ih (step state event))

theorem reports_eq_nil {before after : List Event} {event : Event}
    (h : (run state (before ++ event :: after)).diagnostics = #[]) :
    reports (run state before) event = [] := by
  have hprefix := diagnostics_prefix_run (step (run state before) event) after
  rw [run_append, run_cons] at h
  rw [h, diagnostics_step] at hprefix
  exact (List.append_eq_nil_iff.mp (List.prefix_nil.mp hprefix)).2

end ScopeCheck.Resolution
