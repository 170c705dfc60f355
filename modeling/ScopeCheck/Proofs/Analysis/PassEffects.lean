import ScopeCheck.Proofs.Analysis.Severity
import ScopeCheck.Proofs.Analysis.ResolutionReports

namespace ScopeCheck

/-- The state that an action leaves behind, whether it ends well or not. -/
def stateAfter {β σ : Type} (action : EStateM β σ Unit) (state : σ) : σ :=
  match action state with
  | .ok _ last => last
  | .error _ last => last

namespace State

/-- The complaints of `last` are those of `state` and then some of one severity. -/
def Reports (severity : Severity) (state last : State) : Prop :=
  ∃ reports : List Diagnostic, last.diagnostics.toList = state.diagnostics.toList ++ reports ∧
    ∀ diagnostic ∈ reports, diagnostic.severity = severity

/-- What the first pass does as far as the second one is concerned. -/
structure AddsNames (state last : State) : Prop where
  reports : state.Reports .symbol last
  types : last.facts.types = state.facts.types

/-- What the second pass does: types are recorded, and all of them for expressions. -/
structure AddsTypes (state : State) (tree : Tree) (last : State) : Prop where
  reports : state.Reports .type last
  names : Typing.SameNames state last
  types : ∃ typed : List (NodeId × ValueType),
    last.facts.types = typed.foldl (fun types item => types.insert item.1 item.2) state.facts.types ∧
      ∀ item ∈ typed, ∃ node expr, tree.node? item.1 = some node ∧ node.label = .expression expr

variable {state next last : State} {severity : Severity} {tree : Tree}

theorem Reports.of_eq (h : last.diagnostics = state.diagnostics) : state.Reports severity last :=
  ⟨[], by rw [h, List.append_nil], nofun⟩

theorem Reports.trans (h : state.Reports severity next) (h' : next.Reports severity last) :
    state.Reports severity last := by
  obtain ⟨reports, hreports, hseverity⟩ := h
  obtain ⟨more, hmore, hseverity'⟩ := h'
  refine ⟨reports ++ more, by rw [hmore, hreports, List.append_assoc], fun diagnostic hmem => ?_⟩
  exact (List.mem_append.mp hmem).elim (hseverity diagnostic) (hseverity' diagnostic)

theorem AddsNames.refl (state : State) : state.AddsNames state := ⟨.of_eq rfl, rfl⟩

theorem AddsNames.trans (h : state.AddsNames next) (h' : next.AddsNames last) :
    state.AddsNames last :=
  ⟨h.reports.trans h'.reports, h'.types.trans h.types⟩

theorem AddsTypes.of_untyped (hreports : state.Reports .type last)
    (hnames : Typing.SameNames state last) (htypes : last.facts.types = state.facts.types) :
    state.AddsTypes tree last :=
  ⟨hreports, hnames, [], htypes, nofun⟩

theorem AddsTypes.refl (state : State) : state.AddsTypes tree state :=
  .of_untyped (.of_eq rfl) (.refl state) rfl

theorem AddsTypes.trans (h : state.AddsTypes tree next) (h' : next.AddsTypes tree last) :
    state.AddsTypes tree last where
  reports := h.reports.trans h'.reports
  names := h.names.trans h'.names
  types := by
    obtain ⟨typed, htypes, hexpressions⟩ := h.types
    obtain ⟨more, htypes', hexpressions'⟩ := h'.types
    refine ⟨typed ++ more, by rw [htypes', htypes, List.foldl_append], fun item hmem => ?_⟩
    exact (List.mem_append.mp hmem).elim (hexpressions item) (hexpressions' item)

end State

namespace Resolution

theorem severity_reports (state : State) (event : Event) :
    ∀ diagnostic ∈ reports state event, diagnostic.severity = .symbol := by
  intro diagnostic hmem
  cases event with
  | leave id node => cases hmem
  | enter id node =>
    obtain ⟨label, line, children, sibling⟩ := node
    cases label with
    | statement stmt => cases hmem
    | declaration decl =>
      obtain ⟨kind, name, type, size⟩ := decl
      have hduplicate : diagnostic ∈ (if state.lookupLocal state.function name = none then []
          else [⟨line, .duplicateDeclaration name⟩] : List Diagnostic) →
            diagnostic.severity = .symbol := by
        intro hmem
        split at hmem
        · cases hmem
        · rw [List.mem_singleton.mp hmem]
          rfl
      cases kind with
      | function => exact hduplicate hmem
      | «variable» => exact hduplicate hmem
      | parameter =>
        cases type with
        | void => cases hmem
        | integer | array => exact hduplicate hmem
    | expression expr =>
      simp only [reports] at hmem
      split at hmem
      · cases hmem
      · split at hmem
        · rw [List.mem_singleton.mp hmem]
          rfl
        · cases hmem

theorem addsNames_step (state : State) (event : Event) : state.AddsNames (step state event) where
  reports := ⟨_, diagnostics_step state event, severity_reports state event⟩
  types := types_step event

theorem addsNames_run (state : State) (events : List Event) :
    state.AddsNames (run state events) := by
  induction events generalizing state with
  | nil => exact .refl state
  | cons event events ih => exact (addsNames_step state event).trans (ih (step state event))

end Resolution

namespace Typing

variable {tree : Tree}

theorem onlyTypes_verdict (state : TypingState) (id : NodeId) (node : Node) :
    OnlyTypes (verdict tree state id node).reports := by
  obtain ⟨label, line, children, sibling⟩ := node
  cases label with
  | declaration decl => exact .nil
  | statement stmt =>
    cases stmt with
    | block => exact .nil
    | ifThen | whileDo =>
      simp only [verdict, statementReports, Judgement.condition_eq]
      exact Report.onlyTypes_condition _ _
    | ret =>
      simp only [verdict, statementReports]
      cases state.enclosing with
      | none => exact .nil
      | some function =>
        simp only [Judgement.ret_eq]
        exact Report.onlyTypes_ret _ _ _
  | expression expr =>
    cases expr with
    | constant value => exact .nil
    | identifier name => exact .nil
    | element name =>
      simp only [verdict, judge]
      cases resolvedSymbol state.base id with
      | none => exact .nil
      | some symbol =>
        simp only [Judgement.element_reports]
        exact Report.onlyTypes_element _ _
    | call callee =>
      simp only [verdict, judge]
      cases resolvedSymbol state.base id with
      | none => exact .nil
      | some symbol =>
        by_cases hkind : symbol.kind = .function
        · simp only [if_pos hkind, Judgement.call_reports]
          exact Report.onlyTypes_call _ _ _ _
        · simp only [if_neg hkind]
          exact .nil
    | operation op =>
      simp only [verdict, judge]
      split
      · simp only [Judgement.operation_reports]
        exact Report.onlyTypes_operation _ _ _ _
      · exact .nil

theorem addsTypes_enter {state next : TypingState} {id : NodeId} {node : Node}
    (h : step tree state (.enter id node) = .ok next) :
    state.base.AddsTypes tree next.base := by
  have hnames := sameNames_step h
  obtain ⟨active, function, blockEntry, rfl⟩ := enter_frame tree state id h
  exact .of_untyped (.of_eq rfl) hnames rfl

theorem addsTypes_leave (state : TypingState) {id : NodeId} {node : Node}
    (hnode : tree.node? id = some node) :
    state.base.AddsTypes tree (leave tree state id node).base where
  reports := by
    refine ⟨(verdict tree state id node).reports, ?_, onlyTypes_verdict state id node⟩
    rw [diagnostics_leave]
    simp
  names := sameNames_step (show step tree state (.leave id node) = .ok _ from rfl)
  types := by
    rw [facts_leave]
    cases htype : (verdict tree state id node).type with
    | none => exact ⟨[], rfl, nofun⟩
    | some type =>
      refine ⟨[(id, type)], rfl, fun item hmem => ?_⟩
      obtain rfl := List.mem_singleton.mp hmem
      obtain ⟨expr, hexpr⟩ : ∃ expr, node.label = .expression expr := by
        rw [verdict] at htype
        split at htype
        · exact ⟨_, ‹_›⟩
        · cases htype
        · cases htype
      exact ⟨node, expr, hnode, hexpr⟩

theorem addsTypes_visit (state : TypingState) {events : List Event}
    (hnodes : ∀ id node, .leave id node ∈ events → tree.node? id = some node) :
    state.base.AddsTypes tree (stateAfter (forM events (visitor tree)) state).base := by
  induction events generalizing state with
  | nil => exact .refl _
  | cons event events ih =>
    have hrest := fun id node hmem => hnodes id node (List.mem_cons_of_mem event hmem)
    simp only [stateAfter, List.forM_cons, bind, EStateM.bind, visitor]
    cases hstep : step tree state event with
    | error error => exact .refl _
    | ok next =>
      refine State.AddsTypes.trans ?_ (ih next hrest)
      cases event with
      | enter id node => exact addsTypes_enter hstep
      | leave id node =>
        cases hstep
        exact addsTypes_leave state (hnodes id node List.mem_cons_self)

end Typing

theorem Tree.node?_of_leave {tree : Tree} {fuel : Nat} {first : Option NodeId} {id : NodeId}
    {node : Node} (h : .leave id node ∈ tree.eventsUpTo fuel first) : tree.node? id = some node := by
  induction fuel generalizing first with
  | zero => cases h
  | succ fuel ih =>
    cases first with
    | none => cases h
    | some top =>
      cases htop : tree.node? top with
      | none => simp [eventsUpTo, htop] at h
      | some topNode =>
        simp only [eventsUpTo, htop, List.mem_cons, List.mem_append] at h
        rcases h with h | ((h | h) | h) | h | h
        · cases h
        · exact ih h
        · exact ih h
        · exact ih h
        · cases h
          exact htop
        · exact ih h

theorem stateAfter_resolveNames (tree : Tree) (state : State) :
    stateAfter (resolveNames tree) state = Resolution.run state tree.events := by
  rw [stateAfter, resolveNames_eq]
  by_cases hdepth : (Resolution.run state tree.events).depth = 1
  · rw [if_pos hdepth]
  · rw [if_neg hdepth]

theorem stateAfter_checkTypes (tree : Tree) (state : State) :
    stateAfter (checkTypes tree) state =
      (stateAfter (forM tree.events (Typing.visitor tree)) ⟨state, none⟩).base := by
  rw [← Tree.walk_eq_forM]
  simp only [stateAfter, checkTypes, bind, EStateM.bind]
  cases tree.walk (Typing.visitor tree) ⟨state, none⟩ with
  | error error last => rfl
  | ok _ last =>
    simp only [Pass.requireBalance]
    by_cases hdepth : last.base.depth = 1
    · rw [if_pos hdepth]
    · rw [if_neg hdepth]

theorem addsNames_resolveNames (tree : Tree) (state : State) :
    state.AddsNames (stateAfter (resolveNames tree) state) := by
  rw [stateAfter_resolveNames]
  exact Resolution.addsNames_run state tree.events

theorem addsTypes_checkTypes (tree : Tree) (state : State) :
    state.AddsTypes tree (stateAfter (checkTypes tree) state) := by
  rw [stateAfter_checkTypes]
  exact Typing.addsTypes_visit ⟨state, none⟩ fun _ _ hmem => Tree.node?_of_leave hmem

/-- The model of an analysis is what the second pass makes of what the first one leaves. -/
theorem toModel_of_analyze {builtins : Bool} {tree : Tree} {model : Model}
    (h : analyze builtins tree = .ok model) :
    (stateAfter (checkTypes tree)
      (stateAfter (resolveNames tree) (.start builtins))).toModel = model := by
  obtain ⟨hdepth, typed, hrun, htyped, rfl⟩ := analyze_eq_ok_iff.mp h
  rw [stateAfter_resolveNames, stateAfter, checkTypes_of_run hrun, if_pos htyped]

/-- Each pass keeps to its part of the state, whatever it starts from and however it ends, so that
all complaints about names come before all those about types. -/
theorem pass_effects (tree : Tree) :
    (∀ state : State, state.AddsNames (stateAfter (resolveNames tree) state)) ∧
    (∀ state : State, state.AddsTypes tree (stateAfter (checkTypes tree) state)) ∧
    ∀ builtins model, analyze builtins tree = .ok model →
      ∃ names types, model.diagnostics.toList = names ++ types ∧
        (∀ diagnostic ∈ names, diagnostic.severity = .symbol) ∧
        ∀ diagnostic ∈ types, diagnostic.severity = .type := by
  refine ⟨addsNames_resolveNames tree, addsTypes_checkTypes tree, fun builtins model hmodel => ?_⟩
  obtain ⟨names, hnames, hsymbol⟩ := (addsNames_resolveNames tree (.start builtins)).reports
  obtain ⟨types, htypes, htype⟩ :=
    (addsTypes_checkTypes tree (stateAfter (resolveNames tree) (.start builtins))).reports
  refine ⟨names, types, ?_, hsymbol, htype⟩
  rw [← toModel_of_analyze hmodel, State.toModel, htypes, hnames, State.start_diagnostics]
  rfl

/-- A function that returns nothing although it should, and then uses a name that means nothing. -/
def mixedText : String :=
  "[0,[\x7b\"kind\":\"fun\",\"name\":\"f\",\"type\":\"integer\",\"line\":1,\"children\":[null,1]\x7d,"
    ++ "\x7b\"kind\":\"compound\",\"line\":1,\"children\":[null,2]\x7d,"
    ++ "\x7b\"kind\":\"return\",\"line\":2,\"sibling\":3\x7d,"
    ++ "\x7b\"kind\":\"id\",\"name\":\"x\",\"line\":3\x7d]]"

def mixedTree : Tree where
  nodes := #[
    ⟨.declaration ⟨.function, "f", .integer, none⟩, 1, ⟨none, some 1, none⟩, none⟩,
    ⟨.statement .block, 1, ⟨none, some 2, none⟩, none⟩,
    ⟨.statement .ret, 2, .empty, some 3⟩,
    .leaf (.expression (.identifier "x")) 3]
  root := some 0

theorem ofText_mixedText : Tree.ofText mixedText = .ok mixedTree :=
  Tree.ofText_eq_ok (ofList_append (ofList_append (ofList_append rfl rfl) rfl) rfl)
    (by decide +kernel)

/-- The name is complained about first. Without the first pass the second one breaks off. -/
theorem pass_effects_mixedTree :
    Tree.ofText mixedText = .ok mixedTree ∧
      (∃ last, checkTypes mixedTree .initial = .error (.missingBlockScope 1) last ∧
        State.initial.AddsTypes mixedTree last) ∧
      ∃ model, analyze true mixedTree = .ok model ∧
        model.diagnostics.toList =
          [⟨3, .undeclaredIdentifier "x"⟩, ⟨2, .returnTypeMismatch "f" .integer none⟩] ∧
        ∃ names types, model.diagnostics.toList = names ++ types ∧
          (∀ diagnostic ∈ names, diagnostic.severity = .symbol) ∧
          ∀ diagnostic ∈ types, diagnostic.severity = .type := by
  obtain ⟨model, hmodel, hdiagnostics⟩ : ∃ model, analyze true mixedTree = .ok model ∧
      model.diagnostics.toList =
        [⟨3, .undeclaredIdentifier "x"⟩, ⟨2, .returnTypeMismatch "f" .integer none⟩] :=
    ⟨_, rfl, rfl⟩
  obtain ⟨-, hcheck, hanalyze⟩ := pass_effects mixedTree
  exact ⟨ofText_mixedText, ⟨_, rfl, hcheck .initial⟩, model, hmodel, hdiagnostics,
    hanalyze true model hmodel⟩

end ScopeCheck
