import ScopeCheck.Proofs.Analysis.Passes
import ScopeCheck.Proofs.Analysis.State
import ScopeCheck.Proofs.Tree.Reachability

namespace ScopeCheck

/-- What the returns of a function are checked against. -/
def Label.enclosing? : Label → Option Enclosing
  | .declaration decl => if decl.kind = .function then some ⟨decl.name, decl.type⟩ else none
  | _ => none

theorem Label.enclosing?_eq_none {label : Label} (h : ¬ label.isFunction) :
    label.enclosing? = none := by
  cases label with
  | statement stmt => rfl
  | expression expr => rfl
  | declaration decl => simpa [isFunction, enclosing?] using h

namespace Typing

variable (tree : Tree) (state : TypingState) (id : NodeId) {node : Node}

theorem record_eq (state : State) (verdict : Verdict) :
    record state id verdict =
      { state with
        diagnostics := state.diagnostics ++ verdict.reports.toArray
        facts := match verdict.type with
          | none => state.facts
          | some type => state.facts.setType id type } := by
  simp only [record, State.foldl_report]
  cases verdict.type <;> rfl

theorem enter_bodiless (h : node.label.isFunction) (hbody : node.child 1 = none) :
    ∃ enclosing, step tree state (.enter id node) = .ok ⟨state.base, enclosing⟩ := by
  obtain ⟨decl, hdecl, hkind⟩ := Label.exists_declaration h
  exact ⟨some ⟨decl.name, decl.type⟩, by simp [step, enter, enterFunction, hdecl, hkind, hbody]⟩

theorem enter_missing (h : node.label.isFunction) {body : NodeId} (hbody : node.child 1 = some body)
    (hscope : state.base.facts.scopeOf body = none) :
    step tree state (.enter id node) = .error (.missingBlockScope node.line) := by
  obtain ⟨decl, hdecl, hkind⟩ := Label.exists_declaration h
  simp [step, enter, enterFunction, hdecl, hkind, hbody, hscope]

theorem enter_function (h : node.label.isFunction) {body : NodeId}
    (hbody : node.child 1 = some body) {scope : ScopeId}
    (hscope : state.base.facts.scopeOf body = some scope) :
    ∃ enclosing, step tree state (.enter id node) =
      .ok ⟨(state.base.push scope).expect .reuse, enclosing⟩ := by
  obtain ⟨decl, hdecl, hkind⟩ := Label.exists_declaration h
  exact ⟨some ⟨decl.name, decl.type⟩,
    by simp [step, enter, enterFunction, hdecl, hkind, hbody, hscope]⟩

theorem enter_reusing_block (h : node.label.isBlock) (hentry : state.base.blockEntry = .reuse) :
    step tree state (.enter id node) = .ok { state with base := state.base.expect .fresh } := by
  simp [step, enter, enterBlock, Label.eq_block h, hentry]

theorem enter_fresh_block (h : node.label.isBlock) (hentry : state.base.blockEntry = .fresh)
    {scope : ScopeId} (hscope : state.base.facts.scopeOf id = some scope) :
    step tree state (.enter id node) = .ok { state with base := state.base.push scope } := by
  simp [step, enter, enterBlock, Label.eq_block h, hentry, hscope]

theorem enter_other (hfunction : ¬ node.label.isFunction) (hblock : ¬ node.label.isBlock) :
    step tree state (.enter id node) = .ok state := by
  obtain ⟨label, line, children, sibling⟩ := node
  cases label with
  | statement stmt => cases stmt <;> simp_all [Label.isBlock, step, enter]
  | expression expr => rfl
  | declaration decl => simp_all [Label.isFunction, step, enter]

theorem leave_block (h : node.label.isBlock) :
    leave tree state id node = { state with base := state.base.pop } := by
  simp [leave, Label.eq_block h]

theorem leave_function (h : node.label.isFunction) :
    leave tree state id node = { state with enclosing := none } := by
  obtain ⟨decl, hdecl, hkind⟩ := Label.exists_declaration h
  simp [leave, hdecl, hkind]

theorem enterFunction_frame {decl : Declaration} {next : TypingState}
    (h : enterFunction state node decl = .ok next) :
    ∃ active function blockEntry,
      next = ⟨{ state.base with active, function, blockEntry }, some ⟨decl.name, decl.type⟩⟩ := by
  simp only [enterFunction] at h
  split at h
  · cases h
    exact ⟨_, _, _, rfl⟩
  · split at h
    · cases h
    · cases h
      exact ⟨_, _, _, rfl⟩

theorem enterBlock_frame {next : TypingState} (h : enterBlock state id node = .ok next) :
    ∃ active function blockEntry,
      next = { state with base := { state.base with active, function, blockEntry } } := by
  simp only [enterBlock] at h
  split at h
  · cases h
    exact ⟨_, _, _, rfl⟩
  · split at h
    · cases h
    · cases h
      exact ⟨_, _, _, rfl⟩

theorem enter_frame {next : TypingState} (h : step tree state (.enter id node) = .ok next) :
    ∃ active function blockEntry,
      next = ⟨{ state.base with active, function, blockEntry },
        node.label.enclosing?.or state.enclosing⟩ := by
  obtain ⟨label, line, children, sibling⟩ := node
  cases label with
  | expression expr =>
    cases h
    exact ⟨_, _, _, rfl⟩
  | statement stmt =>
    cases stmt with
    | block => exact enterBlock_frame state id h
    | ifThen | whileDo | ret =>
      cases h
      exact ⟨_, _, _, rfl⟩
  | declaration decl =>
    by_cases hkind : decl.kind = .function
    · simp only [step, enter, if_pos hkind] at h
      simpa [Label.enclosing?, hkind] using enterFunction_frame state h
    · simp only [step, enter, if_neg hkind] at h
      cases h
      exact ⟨_, _, _, by simp [Label.enclosing?, hkind]; rfl⟩

/-- What is found out about a node when it is left. -/
def verdict (tree : Tree) (state : TypingState) (id : NodeId) (node : Node) : Verdict :=
  match node.label with
  | .expression expr => judge tree state.base id node expr
  | .statement stmt => ⟨none, statementReports tree state node stmt⟩
  | .declaration _ => .untyped

theorem leave_other (hfunction : ¬ node.label.isFunction) (hblock : ¬ node.label.isBlock) :
    leave tree state id node =
      { state with base := record state.base id (verdict tree state id node) } := by
  obtain ⟨label, line, children, sibling⟩ := node
  cases label with
  | statement stmt =>
    cases stmt with
    | block => simp [Label.isBlock] at hblock
    | ifThen | whileDo | ret => rfl
  | expression expr => rfl
  | declaration decl => simp_all [Label.isFunction, leave, record, verdict, Verdict.untyped]

@[simp]
theorem record_active (state : State) (verdict : Verdict) :
    (record state id verdict).active = state.active := by
  rw [record_eq]

@[simp]
theorem record_blockEntry (state : State) (verdict : Verdict) :
    (record state id verdict).blockEntry = state.blockEntry := by
  rw [record_eq]

theorem facts_leave (node : Node) :
    (leave tree state id node).base.facts =
      match (verdict tree state id node).type with
      | none => state.base.facts
      | some type => state.base.facts.setType id type := by
  by_cases hfunction : node.label.isFunction
  · obtain ⟨decl, hdecl, -⟩ := Label.exists_declaration hfunction
    rw [leave_function tree state id hfunction, verdict, hdecl]
    rfl
  by_cases hblock : node.label.isBlock
  · rw [leave_block tree state id hblock, State.pop_facts, verdict, Label.eq_block hblock]
  · rw [leave_other tree state id hfunction hblock, record_eq]

theorem diagnostics_leave (node : Node) :
    (leave tree state id node).base.diagnostics =
      state.base.diagnostics ++ (verdict tree state id node).reports.toArray := by
  by_cases hfunction : node.label.isFunction
  · obtain ⟨decl, hdecl, -⟩ := Label.exists_declaration hfunction
    rw [leave_function tree state id hfunction, verdict, hdecl]
    simp [Verdict.untyped]
  by_cases hblock : node.label.isBlock
  · rw [leave_block tree state id hblock, verdict, Label.eq_block hblock]
    simp [statementReports]
  · rw [leave_other tree state id hfunction hblock, record_eq]

theorem typeOf_leave (node : Node) (other : NodeId) :
    (leave tree state id node).base.facts.typeOf other =
      if id = other then (verdict tree state id node).type.or (state.base.facts.typeOf other)
      else state.base.facts.typeOf other := by
  rw [facts_leave]
  cases (verdict tree state id node).type with
  | none => simp
  | some type => simp [NodeFacts.typeOf_setType]

theorem leave_frame (node : Node) :
    ∃ active function types diagnostics,
      leave tree state id node =
        ⟨{ state.base with
            active, function, diagnostics, facts := { state.base.facts with types } },
          if node.label.isFunction then none else state.enclosing⟩ := by
  by_cases hfunction : node.label.isFunction
  · rw [leave_function tree state id hfunction, if_pos hfunction]
    exact ⟨_, _, _, _, rfl⟩
  rw [if_neg hfunction]
  by_cases hblock : node.label.isBlock
  · obtain ⟨active, function, hpop⟩ := state.base.pop_frame
    rw [leave_block tree state id hblock, hpop]
    exact ⟨_, _, _, _, rfl⟩
  · rw [leave_other tree state id hfunction hblock, record_eq]
    cases (verdict tree state id node).type with
    | none => exact ⟨state.base.active, state.base.function, state.base.facts.types, _, rfl⟩
    | some type => exact ⟨_, _, _, _, rfl⟩

@[simp]
theorem scopeOf_leave (node : Node) (other : NodeId) :
    (leave tree state id node).base.facts.scopeOf other = state.base.facts.scopeOf other := by
  rw [facts_leave]
  split <;> rfl

/-- A node is left in the state that the walk of its child slots ends in. -/
theorem run_around {next : TypingState} {events : List Event}
    (hstep : step tree state (.enter id node) = .ok next) :
    run tree state (.enter id node :: (events ++ [.leave id node])) =
      (run tree next events).map (leave tree · id node) := by
  rw [run_cons, hstep]
  simp only [bind, Except.bind, run_append]
  cases run tree next events with
  | error error => rfl
  | ok last => rfl

end Typing

end ScopeCheck
