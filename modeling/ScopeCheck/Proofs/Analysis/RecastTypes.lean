import ScopeCheck.Proofs.Analysis.NameAccounting
import ScopeCheck.Proofs.Analysis.RecastNames

namespace ScopeCheck

def AnalysisError.mapLine (f : UInt32 → UInt32) : AnalysisError → AnalysisError
  | .missingBlockScope line => .missingBlockScope (f line)
  | .unbalancedScopes depth => .unbalancedScopes depth

namespace Recast

variable (cast : Recast)

def onOperand (operand : Operand) : Operand := { operand with line := cast.line operand.line }

def onVerdict (verdict : Verdict) : Verdict :=
  ⟨verdict.type, verdict.reports.map (Diagnostic.mapLine cast.line)⟩

/-- Two results that correspond, as `related` says where there is no error. -/
inductive Outcomes {α β : Type} (related : α → β → Prop) :
    Except AnalysisError α → Except AnalysisError β → Prop
  | ok {a : α} {b : β} (h : related a b) : Outcomes related (.ok a) (.ok b)
  | error (error : AnalysisError) : Outcomes related (.error error) (.error (error.mapLine cast.line))

structure RelatesTyping (state other : TypingState) : Prop where
  base : cast.Relates state.base other.base
  enclosing : other.enclosing = state.enclosing

/-- What one model says of the nodes of a tree, the other one says of what they have become. -/
structure RelatesModel (model other : Model) : Prop where
  scopes : other.scopes = model.scopes
  symbols : other.symbols = cast.onSymbols model.symbols
  facts : cast.MovesFacts model.facts other.facts
  diagnostics : other.diagnostics = model.diagnostics.map (Diagnostic.mapLine cast.line)

section Judgement

theorem operation_onOperand (line : UInt32) (op : Operator) (left right : Operand) :
    Judgement.operation (cast.line line) op (cast.onOperand left) (cast.onOperand right) =
      cast.onVerdict (Judgement.operation line op left right) := by
  obtain ⟨leftLine, leftType⟩ := left
  obtain ⟨rightLine, rightType⟩ := right
  rcases leftType with _ | (_ | _ | _) <;> rcases rightType with _ | (_ | _ | _) <;>
    cases op <;> rfl

theorem element_onOperand (name : String) (index : Option Operand) :
    Judgement.element name (index.map cast.onOperand) =
      cast.onVerdict (Judgement.element name index) := by
  rcases index with _ | ⟨line, _ | (_ | _ | _)⟩ <;> rfl

theorem arguments_onOperand (callee : String) (complaint : Diagnostic) (position : Nat)
    (args : List Operand) (params : List ValueType) :
    Judgement.arguments callee (complaint.mapLine cast.line) position (args.map cast.onOperand)
        params =
      (Judgement.arguments callee complaint position args params).map (Diagnostic.mapLine cast.line) := by
  induction args generalizing position params with
  | nil => cases params <;> rfl
  | cons arg args ih =>
    cases params with
    | nil => rfl
    | cons expected params =>
      obtain ⟨line, type⟩ := arg
      have hrest := ih (position + 1) params
      rcases type with _ | (_ | _ | _)
      · exact hrest
      · rfl
      all_goals
        simp only [List.map_cons, onOperand, Judgement.arguments]
        split
        · exact hrest
        · rfl

theorem call_onOperand (line : UInt32) (callee : String) (type : ValueType)
    (params : List ValueType) (args : List Operand) :
    Judgement.call (cast.line line) callee type params (args.map cast.onOperand) =
      cast.onVerdict (Judgement.call line callee type params args) := by
  have hargs := cast.arguments_onOperand callee
    ⟨line, .arityMismatch callee params.length args.length⟩ 1 args params
  simp only [Diagnostic.mapLine] at hargs
  simp only [Judgement.call, onVerdict, List.length_map, hargs]
  cases Judgement.arguments callee ⟨line, .arityMismatch callee params.length args.length⟩ 1 args
    params <;> rfl

theorem condition_onOperand (stmt : Statement) (value : Option Operand) :
    Judgement.condition stmt (value.map cast.onOperand) =
      (Judgement.condition stmt value).map (Diagnostic.mapLine cast.line) := by
  rcases value with _ | ⟨line, _ | (_ | _ | _)⟩ <;> rfl

theorem ret_onOperand (line : UInt32) (function : String) (expected : ValueType)
    (value : Option Operand) :
    Judgement.ret (cast.line line) function expected (value.map cast.onOperand) =
      (Judgement.ret line function expected value).map (Diagnostic.mapLine cast.line) := by
  have hcomplaint : ∀ found, (if Judgement.returnable expected found then []
      else [⟨cast.line line, .returnTypeMismatch function expected found⟩] : List Diagnostic) =
      (if Judgement.returnable expected found then []
        else [⟨line, .returnTypeMismatch function expected found⟩] : List Diagnostic).map
          (Diagnostic.mapLine cast.line) := by
    intro found
    split <;> rfl
  rcases value with _ | ⟨valueLine, _ | found⟩
  · exact hcomplaint none
  · rfl
  · exact hcomplaint (some found)

end Judgement

variable {cast} {tree other : Tree}

/-- The symbols that come from the tree come from nodes that are reached. -/
def KnowsOrigins (tree : Tree) (symbols : SymbolTable) : Prop :=
  ∀ id symbol decl, symbols.get? id = some symbol → symbol.origin = .node decl →
    ∃ node, (decl, node) ∈ tree.entered

namespace Relates

variable {state state' : State} (h : cast.Relates state state')

include h

theorem resolvedSymbol_eq (id : NodeId) :
    Typing.resolvedSymbol state' (cast.place id) =
      (Typing.resolvedSymbol state id).map cast.onSymbol := by
  rw [Typing.resolvedSymbol, Typing.resolvedSymbol, h.facts.resolution, h.symbols]
  cases state.facts.resolution id with
  | none => rfl
  | some symbol => exact get?_onSymbols state.symbols symbol

theorem record (id : NodeId) (verdict : Verdict) :
    cast.Relates (Typing.record state id verdict)
      (Typing.record state' (cast.place id) (cast.onVerdict verdict)) := by
  rw [Typing.record_eq, Typing.record_eq]
  refine ⟨h.scopes, h.symbols, ?_, ?_, h.active, h.function, h.blockEntry⟩
  · cases htype : verdict.type with
    | none => simpa only [onVerdict, htype] using h.facts
    | some type => simpa only [onVerdict, htype] using h.facts.setType id type
  · simp [h.diagnostics, onVerdict]

section Reached

variable (hcarries : cast.Carries tree other) (hwell : tree.WellLinked)
  (hwell' : other.WellLinked) {id : NodeId} {node : Node} (hid : tree.Reachable id)
  (hnode : tree.node? id = some node)

include hcarries hwell hid hnode

theorem operand?_eq (slot : Slot) :
    Typing.operand? other state'.facts (cast.onNode id node) slot =
      (Typing.operand? tree state.facts node slot).map cast.onOperand := by
  simp only [Typing.operand?, child_onNode]
  cases hchild : node.child slot with
  | none => rfl
  | some child =>
    obtain ⟨childNode, hchildNode⟩ := Option.ne_none_iff_exists'.mp
      ((Tree.Reachable.child slot hid hnode hchild).node_ne_none hwell)
    simp [hchildNode, hcarries.node child childNode hchildNode, Typing.operandOf, h.facts.typeOf,
      onOperand, onNode]

include hwell'

theorem operands_eq (slot : Slot) :
    Typing.operands other state'.facts (cast.onNode id node) slot =
      (Typing.operands tree state.facts node slot).map cast.onOperand := by
  rw [Typing.operands, Typing.operands, hcarries.list_eq hwell hwell' hid hnode, List.map_map,
    List.map_map]
  congr 1
  funext item
  simp only [Function.comp, onItem, Typing.operandOf, h.facts.typeOf, onOperand, onNode]

end Reached

end Relates

theorem parameters_eq (hcarries : cast.Carries tree other) (hwell : tree.WellLinked)
    (hwell' : other.WellLinked) {origin : Origin}
    (horigin : ∀ decl, origin = .node decl → ∃ node, (decl, node) ∈ tree.entered) :
    Typing.parameters other (origin.mapNode cast.place) = Typing.parameters tree origin := by
  cases origin with
  | builtin params => rfl
  | node decl =>
    obtain ⟨node, hentered⟩ := horigin decl rfl
    obtain ⟨hid, hnode⟩ := hwell.mem_entered_iff.mp hentered
    simp only [Typing.parameters, Origin.mapNode, hnode, hcarries.node decl node hnode,
      hcarries.list_eq hwell hwell' hid hnode, List.filterMap_map]
    congr 1
    funext item
    obtain ⟨itemId, label, line, children, sibling⟩ := item
    cases label with
    | statement stmt => rfl
    | expression expr => cases expr <;> rfl
    | declaration decl =>
      obtain ⟨kind, name, type, size⟩ := decl
      cases kind <;> cases type <;> rfl

section Step

variable {state state' : TypingState} (h : cast.RelatesTyping state state')

include h

theorem outcomes_enter (id : NodeId) (node : Node) :
    cast.Outcomes cast.RelatesTyping (Typing.step tree state (.enter id node))
      (Typing.step other state' (cast.onEvent (.enter id node))) := by
  obtain ⟨label, line, children, sibling⟩ := node
  cases label with
  | expression expr => cases expr <;> exact .ok h
  | statement stmt =>
    cases stmt with
    | ifThen | whileDo | ret => exact .ok h
    | block =>
      simp only [onEvent, onNode, Label.recast, Typing.step, Typing.enter, Typing.enterBlock,
        h.base.blockEntry, h.base.facts.scopeOf]
      cases state.base.blockEntry with
      | reuse => exact .ok ⟨h.base.expect .fresh, h.enclosing⟩
      | fresh =>
        cases state.base.facts.scopeOf id with
        | none => exact .error _
        | some scope => exact .ok ⟨h.base.push scope, h.enclosing⟩
  | declaration decl =>
    simp only [onEvent, Typing.step, Typing.enter, onNode, Label.recast]
    by_cases hkind : decl.kind = .function
    · simp only [if_pos hkind, Typing.enterFunction]
      have hchild := @child_onNode cast id ⟨.declaration decl, line, children, sibling⟩ 1
      simp only [onNode, Label.recast] at hchild
      rw [hchild]
      cases Node.child ⟨.declaration decl, line, children, sibling⟩ 1 with
      | none => exact .ok ⟨h.base, rfl⟩
      | some body =>
        simp only [Option.map_some, h.base.facts.scopeOf]
        cases state.base.facts.scopeOf body with
        | none => exact .error _
        | some scope => exact .ok ⟨(h.base.push scope).expect .reuse, rfl⟩
    · simp only [if_neg hkind]
      exact .ok h

variable (hcarries : cast.Carries tree other) (hwell : tree.WellLinked)
  (hwell' : other.WellLinked) (horigins : KnowsOrigins tree state.base.symbols) {id : NodeId}
  {node : Node} (hid : tree.Reachable id) (hnode : tree.node? id = some node)

include hcarries hwell hwell' horigins hid hnode

theorem verdict_eq :
    Typing.verdict other state' (cast.place id) (cast.onNode id node) =
      cast.onVerdict (Typing.verdict tree state id node) := by
  have hoperand := h.base.operand?_eq hcarries hwell hid hnode
  have hoperands := h.base.operands_eq hcarries hwell hwell' hid hnode 0
  have hsymbol := h.base.resolvedSymbol_eq id
  obtain ⟨label, line, children, sibling⟩ := node
  cases label with
  | declaration decl => rfl
  | statement stmt =>
    cases stmt with
    | block => rfl
    | ifThen | whileDo =>
      exact congrArg _ ((congrArg _ (hoperand 0)).trans (cast.condition_onOperand _ _))
    | ret =>
      show Verdict.mk none (Typing.statementReports other state' _ .ret) = _
      simp only [Typing.verdict, Typing.statementReports, onVerdict, h.enclosing, hoperand]
      cases state.enclosing with
      | none => rfl
      | some function => exact congrArg _ (cast.ret_onOperand _ _ _ _)
  | expression expr =>
    cases expr with
    | constant value => rfl
    | identifier name =>
      show Verdict.mk ((Typing.resolvedSymbol state'.base (cast.place id)).map _) [] = _
      rw [hsymbol, Option.map_map]
      rfl
    | element name =>
      show Typing.judge other state'.base _ _ (.element name) = _
      simp only [Typing.judge, Typing.verdict, hsymbol, hoperand]
      cases Typing.resolvedSymbol state.base id with
      | none => rfl
      | some symbol => exact cast.element_onOperand name _
    | operation op =>
      show Typing.judge other state'.base (cast.place id) _ (.operation op) = _
      simp only [Typing.judge, Typing.verdict, hoperand]
      generalize Typing.operand? tree state.base.facts (Node.mk _ line children sibling) = operandAt
      cases operandAt 0 with
      | none => rfl
      | some left =>
        cases operandAt 1 with
        | none => rfl
        | some right => exact cast.operation_onOperand line op left right
    | call callee =>
      show Typing.judge other state'.base _ _ (.call callee) = _
      simp only [Typing.judge, Typing.verdict, hsymbol, hoperands]
      cases hresolved : Typing.resolvedSymbol state.base id with
      | none => rfl
      | some symbol =>
        obtain ⟨found, -, hfound⟩ := Option.bind_eq_some_iff.mp hresolved
        have hparameters := parameters_eq hcarries hwell hwell'
          (horigins found symbol · hfound)
        simp only [Option.map_some, onSymbol, Symbol.mapLines, Definition.mapLine, hparameters]
        by_cases hkind : symbol.kind = .function
        · simp only [if_pos hkind]
          exact cast.call_onOperand line callee symbol.type _ _
        · simp only [if_neg hkind]
          rfl

theorem relates_leave :
    cast.RelatesTyping (Typing.leave tree state id node)
      (Typing.leave other state' (cast.place id) (cast.onNode id node)) := by
  have hisFunction : (cast.onNode id node).label.isFunction = node.label.isFunction :=
    node.label.isFunction_recast _ _
  have hisBlock : (cast.onNode id node).label.isBlock = node.label.isBlock :=
    node.label.isBlock_recast _ _
  by_cases hfunction : node.label.isFunction
  · rw [Typing.leave_function tree state id hfunction,
      Typing.leave_function other state' _ (hisFunction.trans hfunction)]
    exact ⟨h.base, rfl⟩
  by_cases hblock : node.label.isBlock
  · rw [Typing.leave_block tree state id hblock,
      Typing.leave_block other state' _ (hisBlock.trans hblock)]
    exact ⟨h.base.pop, h.enclosing⟩
  · rw [Typing.leave_other tree state id hfunction hblock,
      Typing.leave_other other state' _ (by rwa [hisFunction]) (by rwa [hisBlock]),
      verdict_eq h hcarries hwell hwell' horigins hid hnode]
    exact ⟨h.base.record id _, h.enclosing⟩

end Step

section Run

variable (hcarries : cast.Carries tree other) (hwell : tree.WellLinked)
  (hwell' : other.WellLinked)

include hcarries hwell hwell'

/-- Both second passes go on side by side until the walk ends or both break off. -/
theorem outcomes_run {start start' : TypingState} (hstart : cast.RelatesTyping start start')
    (horigins : KnowsOrigins tree start.base.symbols) {before : List Event}
    (hbefore : before <+: tree.events) :
    cast.Outcomes cast.RelatesTyping (Typing.run tree start before)
      (Typing.run other start' (before.map cast.onEvent)) := by
  induction before using List.reverseRecOn with
  | nil => exact .ok hstart
  | append_singleton before event ih =>
    have h := ih ((List.prefix_append before [event]).trans hbefore)
    rw [List.map_append, List.map_singleton, Typing.run_concat, Typing.run_concat]
    cases hrun : Typing.run tree start before with
    | error error =>
      rw [hrun] at h
      generalize Typing.run other start' (before.map cast.onEvent) = result at h ⊢
      cases h
      exact .error error
    | ok state =>
      rw [hrun] at h
      generalize Typing.run other start' (before.map cast.onEvent) = result at h ⊢
      cases h with
      | @ok _ state' h =>
        cases event with
        | enter id node => exact @outcomes_enter _ tree other _ _ h id node
        | leave id node =>
          obtain ⟨hid, hnode, -⟩ := Tree.below_of_leave hwell hbefore
          rw [← (Typing.sameNames_run hrun).symbols] at horigins
          exact .ok (relates_leave h hcarries hwell hwell' horigins hid hnode)

theorem outcomes_analyze (builtins : Bool) :
    cast.Outcomes cast.RelatesModel (analyze builtins tree) (analyze builtins other) := by
  have hnames : cast.Relates (Resolution.run (.start builtins) tree.events)
      (Resolution.run (.start builtins) other.events) := by
    rw [hcarries.events_eq hwell hwell']
    exact relates_run (relates_start builtins) tree.events
  have hdepth : ∀ {state state' : State}, cast.Relates state state' → state'.depth = state.depth := by
    intro state state' h
    rw [State.depth, State.depth, h.active]
  have horigins : KnowsOrigins tree (Resolution.run (.start builtins) tree.events).symbols :=
    fun _ _ _ hsymbol horigin => Resolution.exists_entered_of_origin hsymbol horigin
  have hstart : cast.RelatesTyping ⟨Resolution.run (.start builtins) tree.events, none⟩
      ⟨Resolution.run (.start builtins) other.events, none⟩ := ⟨hnames, rfl⟩
  have htypes := outcomes_run hcarries hwell hwell' hstart horigins (List.prefix_refl _)
  rw [← hcarries.events_eq hwell hwell'] at htypes
  rw [analyze_eq, analyze_eq, hdepth hnames]
  split
  · generalize Typing.run tree _ tree.events = result at htypes ⊢
    generalize Typing.run other _ other.events = result' at htypes ⊢
    cases htypes with
    | error error => exact .error error
    | @ok typed typed' htyped =>
      simp only [hdepth htyped.base]
      split
      · exact .ok ⟨htyped.base.scopes, htyped.base.symbols, htyped.base.facts, htyped.base.diagnostics⟩
      · exact .error (.unbalancedScopes typed.base.depth)
  · exact .error (.unbalancedScopes (Resolution.run (.start builtins) tree.events).depth)

end Run

end Recast

end ScopeCheck
