import ScopeCheck.Proofs.Analysis.ExpressionTypes

namespace ScopeCheck

namespace Report

/-- Every void operand is complained about. Otherwise two typed operands must fit the operator. -/
def operation (line : UInt32) (op : Operator) (left right : Operand) : List Diagnostic :=
  if left.type = some .void ∨ right.type = some .void then
    (if left.type = some .void then [⟨left.line, .voidOperand op⟩] else [])
      ++ if right.type = some .void then [⟨right.line, .voidOperand op⟩] else []
  else
    match left.type, right.type with
    | some leftType, some rightType =>
      if op = .assign then
        if leftType = rightType then []
        else [⟨left.line, .operandTypeMismatch op leftType rightType⟩]
      else if leftType = .integer ∧ rightType = .integer then []
      else if leftType = .array ∧ rightType = .array then [⟨line, .arrayArrayOp op⟩]
      else if op = .times ∨ op = .over ∨ (op = .minus ∧ rightType = .array) then
        [⟨line, .arrayArithmetic op⟩]
      else [⟨left.line, .operandTypeMismatch op leftType rightType⟩]
    | _, _ => []

/-- An index that has a type must be an integer. -/
def element (name : String) : Option Operand → List Diagnostic
  | some ⟨line, some found⟩ => if found = .integer then [] else [⟨line, .indexTypeError name found⟩]
  | _ => []

/-- What is wrong with an argument at a position, where a parameter is expected. An argument without
a type passes. -/
def argument (callee : String) : (Operand × ValueType) × Nat → Option Diagnostic
  | ((⟨line, some found⟩, expected), position) =>
    if found = .void then some ⟨line, .voidArgument callee position⟩
    else if found = expected then none
    else some ⟨line, .argTypeMismatch callee position expected found⟩
  | ((⟨_, none⟩, _), _) => none

/-- The first argument that is wrong, or else the numbers of arguments and parameters where they
differ. -/
def call (line : UInt32) (callee : String) (params : List ValueType) (args : List Operand) :
    List Diagnostic :=
  match ((args.zip params).zipIdx 1).findSome? (argument callee) with
  | some complaint => [complaint]
  | none =>
    if args.length = params.length then []
    else [⟨line, .arityMismatch callee params.length args.length⟩]

/-- A condition must not be void. -/
def condition (stmt : Statement) (value : Option Operand) : List Diagnostic :=
  (value.filter (·.type = some .void)).toList.map fun value => ⟨value.line, .voidCondition stmt⟩

/-- A value without a type is not complained about; no value counts as a void one. -/
def ret (line : UInt32) (function : Enclosing) (value : Option Operand) : List Diagnostic :=
  match value with
  | some ⟨_, none⟩ => []
  | _ =>
    let found := value.bind (·.type)
    if found.getD .void = function.type then []
    else [⟨line, .returnTypeMismatch function.name function.type found⟩]

end Report

def Model.operand? (model : Model) (tree : Tree) (link : Option NodeId) : Option Operand := do
  let id ← link
  return Typing.operandOf model.facts id (← tree.node? id)

def Model.operands (model : Model) (tree : Tree) (link : Option NodeId) : List Operand :=
  (tree.chain link).map fun (id, node) => Typing.operandOf model.facts id node

/-- What a node is complained about for, from the types of a model and the function around it. -/
def Model.own (model : Model) (tree : Tree) (enclosing : Option Enclosing) (id : NodeId)
    (node : Node) : List Diagnostic :=
  let first := model.operand? tree node.children.first
  match node.label with
  | .expression (.operation op) =>
    match first, model.operand? tree node.children.second with
    | some left, some right => Report.operation node.line op left right
    | _, _ => []
  | .expression (.element name) =>
    if model.symbolAt id = none then [] else Report.element name first
  | .expression (.call callee) =>
    match model.symbolAt id with
    | none => []
    | some symbol =>
      if symbol.kind = .function then
        Report.call node.line callee (Typing.parameters tree symbol.origin)
          (model.operands tree node.children.first)
      else []
  | .statement .ifThen => Report.condition .ifThen first
  | .statement .whileDo => Report.condition .whileDo first
  | .statement .ret =>
    match enclosing with
    | none => []
    | some function => Report.ret node.line function first
  | _ => []

theorem Model.own_function (model : Model) {tree : Tree} {enclosing : Option Enclosing}
    {id : NodeId} {node : Node} (h : node.label.isFunction) :
    model.own tree enclosing id node = [] := by
  obtain ⟨decl, hdecl, -⟩ := Label.exists_declaration h
  simp only [own, hdecl]

namespace Judgement

theorem operation_reports (line : UInt32) (op : Operator) (left right : Operand) :
    (operation line op left right).reports = Report.operation line op left right := by
  obtain ⟨leftLine, leftType⟩ := left
  obtain ⟨rightLine, rightType⟩ := right
  rcases leftType with _ | (_ | _ | _) <;> rcases rightType with _ | (_ | _ | _) <;>
    cases op <;> rfl

theorem element_reports (name : String) (index : Option Operand) :
    (element name index).reports = Report.element name index := by
  rcases index with _ | ⟨line, _ | (_ | _ | _)⟩ <;> rfl

theorem arguments_eq (callee : String) (complaint : Diagnostic) (position : Nat)
    (args : List Operand) (params : List ValueType) :
    arguments callee complaint position args params =
      (((args.zip params).zipIdx position).findSome? (Report.argument callee)).or
        (if args.length = params.length then none else some complaint) := by
  induction args generalizing position params with
  | nil => cases params <;> simp [arguments]
  | cons arg args ih =>
    cases params with
    | nil => simp [arguments]
    | cons expected params =>
      obtain ⟨line, type⟩ := arg
      rcases type with _ | (_ | _ | _)
      · simp [arguments, ih, List.findSome?_cons, Report.argument]
      · simp [arguments, Report.argument]
      · by_cases h : ValueType.integer = expected
        · subst h
          simp [arguments, ih, Report.argument]
        · simp [arguments, Report.argument, h]
      · by_cases h : ValueType.array = expected
        · subst h
          simp [arguments, ih, Report.argument]
        · simp [arguments, Report.argument, h]

theorem call_reports (line : UInt32) (callee : String) (type : ValueType)
    (params : List ValueType) (args : List Operand) :
    (call line callee type params args).reports = Report.call line callee params args := by
  simp only [call, Report.call, arguments_eq]
  cases ((args.zip params).zipIdx 1).findSome? (Report.argument callee) with
  | some complaint => rfl
  | none =>
    simp only [Option.none_or]
    split <;> rfl

theorem condition_eq (stmt : Statement) (value : Option Operand) :
    condition stmt value = Report.condition stmt value := by
  rcases value with _ | ⟨line, _ | (_ | _ | _)⟩ <;> rfl

theorem ret_eq (line : UInt32) (function : Enclosing) (value : Option Operand) :
    ret line function.name function.type value = Report.ret line function value := by
  obtain ⟨name, type⟩ := function
  rcases value with _ | ⟨valueLine, _ | found⟩
  · cases type <;> rfl
  · rfl
  · cases type <;> cases found <;> rfl

end Judgement

/-- The nodes of a forest in the order a walk leaves them, each with the function around it. -/
def Forest.leftWithin (enclosing : Option Enclosing) :
    Forest → List (Option Enclosing × NodeId × Node)
  | nil => []
  | cons id node first second third rest =>
    let inside := node.label.enclosing?.or enclosing
    first.leftWithin inside ++ second.leftWithin inside ++ third.leftWithin inside
      ++ (enclosing, id, node) :: rest.leftWithin enclosing

namespace Tree

/-- No function stands inside another one. -/
def FlatFunctions (tree : Tree) : Prop :=
  ∀ id node around, tree.Inside Label.isFunction around id → tree.node? id = some node →
    node.label.isFunction → around = []

/-- The nodes in the order a walk leaves them, each with the function around it. -/
def leftWithin (tree : Tree) : List (Option Enclosing × NodeId × Node) :=
  tree.forest.leftWithin none

end Tree

theorem Forest.map_leftWithin (enclosing : Option Enclosing) (forest : Forest) :
    (forest.leftWithin enclosing).map Prod.snd = forest.left := by
  induction forest generalizing enclosing with
  | nil => rfl
  | cons id node first second third rest ihFirst ihSecond ihThird ihRest =>
    simp [leftWithin, ihFirst, ihSecond, ihThird, ihRest]

theorem Tree.map_leftWithin (tree : Tree) :
    tree.leftWithin.map Prod.snd = tree.events.filterMap Event.left? := by
  rw [leftWithin, Forest.map_leftWithin, Forest.left, events_forest]

namespace Typing

variable {tree : Tree} {start state : TypingState} {before : List Event}

theorem operandOf_congr {facts other : NodeFacts} {id : NodeId}
    (h : facts.typeOf id = other.typeOf id) : operandOf facts id = operandOf other id := by
  funext node
  rw [operandOf, operandOf, h]

theorem operand?_eq (hwell : tree.WellLinked) (model : Model) {id : NodeId} {node : Node}
    (hwalk : before ++ [.leave id node] <+: tree.events)
    (htypes : ∀ other ∈ leftIds before,
      state.base.facts.typeOf other = model.facts.typeOf other) (slot : Slot) :
    operand? tree state.base.facts node slot = model.operand? tree (node.child slot) := by
  refine Option.bind_congr fun child hchild => ?_
  rw [operandOf_congr (htypes child (Tree.child_mem_leftIds hwell hwalk hchild))]

theorem operands_eq (hwell : tree.WellLinked) (model : Model) {id : NodeId} {node : Node}
    (hwalk : before ++ [.leave id node] <+: tree.events)
    (htypes : ∀ other ∈ leftIds before,
      state.base.facts.typeOf other = model.facts.typeOf other) (slot : Slot) :
    operands tree state.base.facts node slot = model.operands tree (node.child slot) := by
  apply List.map_congr_left
  rintro ⟨item, itemNode⟩ hitem
  exact congrFun (operandOf_congr (htypes item (Tree.list_mem_leftIds hwell hwalk hitem))) itemNode

/-- What a node is complained about for follows from the types of the nodes that are left before. -/
theorem verdict_reports (hwell : tree.WellLinked) (model : Model) {id : NodeId} {node : Node}
    (hwalk : before ++ [.leave id node] <+: tree.events)
    (hsymbol : resolvedSymbol state.base id = model.symbolAt id)
    (htypes : ∀ other ∈ leftIds before,
      state.base.facts.typeOf other = model.facts.typeOf other) :
    (verdict tree state id node).reports = model.own tree state.enclosing id node := by
  have hfirst : operand? tree state.base.facts node 0 = model.operand? tree node.children.first :=
    operand?_eq hwell model hwalk htypes 0
  have hsecond : operand? tree state.base.facts node 1 = model.operand? tree node.children.second :=
    operand?_eq hwell model hwalk htypes 1
  have hoperands : operands tree state.base.facts node 0 =
      model.operands tree node.children.first :=
    operands_eq hwell model hwalk htypes 0
  obtain ⟨label, line, children, sibling⟩ := node
  cases label with
  | declaration decl => rfl
  | statement stmt =>
    cases stmt with
    | block => rfl
    | ifThen | whileDo =>
      simp only [verdict, statementReports, Model.own, hfirst, Judgement.condition_eq]
    | ret =>
      simp only [verdict, statementReports, Model.own, hfirst]
      cases state.enclosing with
      | none => rfl
      | some function => exact Judgement.ret_eq ..
  | expression expr =>
    cases expr with
    | constant value => rfl
    | identifier name => rfl
    | element name =>
      simp only [verdict, judge, Model.own, hfirst, hsymbol]
      cases model.symbolAt id with
      | none => rfl
      | some symbol => exact Judgement.element_reports ..
    | call callee =>
      simp only [verdict, judge, Model.own, hoperands, hsymbol]
      cases model.symbolAt id with
      | none => rfl
      | some symbol =>
        by_cases hkind : symbol.kind = .function
        · simp only [if_pos hkind]
          exact Judgement.call_reports ..
        · simp only [if_neg hkind]
          rfl
    | operation op =>
      simp only [verdict, judge, Model.own, hfirst, hsecond]
      cases model.operand? tree children.first with
      | none => rfl
      | some left =>
        cases model.operand? tree children.second with
        | none => rfl
        | some right => exact Judgement.operation_reports ..

/-- Which function's returns are checked after an event. -/
def enclosingStep (enclosing : Option Enclosing) : Event → Option Enclosing
  | .enter _ node => node.label.enclosing?.or enclosing
  | .leave _ node => if node.label.isFunction then none else enclosing

/-- The nodes that are left, each with the function whose returns are checked then. -/
def leftAlong (enclosing : Option Enclosing) :
    List Event → List (Option Enclosing × NodeId × Node)
  | [] => []
  | event :: events =>
    let next := enclosingStep enclosing event
    match event with
    | .enter .. => leftAlong next events
    | .leave id node => (next, id, node) :: leftAlong next events

theorem map_leftAlong (enclosing : Option Enclosing) (events : List Event) :
    (leftAlong enclosing events).map Prod.snd = events.filterMap Event.left? := by
  induction events generalizing enclosing with
  | nil => rfl
  | cons event events ih =>
    cases event with
    | enter id node => simp [leftAlong, ih, Event.left?, List.filterMap_cons]
    | leave id node => simp [leftAlong, ih, Event.left?]

theorem leftAlong_append (enclosing : Option Enclosing) (events later : List Event) :
    leftAlong enclosing (events ++ later) =
      leftAlong enclosing events ++ leftAlong (events.foldl enclosingStep enclosing) later := by
  induction events generalizing enclosing with
  | nil => rfl
  | cons event events ih =>
    cases event with
    | enter id node => simp [leftAlong, ih]
    | leave id node => simp [leftAlong, ih]

theorem enclosing_step {event : Event} {next : TypingState}
    (h : step tree state event = .ok next) :
    next.enclosing = enclosingStep state.enclosing event := by
  cases event with
  | enter id node =>
    obtain ⟨active, function, blockEntry, rfl⟩ := enter_frame tree state id h
    rfl
  | leave id node =>
    obtain ⟨active, function, types, diagnostics, hleave⟩ := leave_frame tree state id node
    cases h
    rw [hleave]
    rfl

/-- At any time of a walk the complaints are those of the nodes that have been left. -/
theorem diagnostics_run (hwell : tree.WellLinked) (model : Model)
    (hsymbol : ∀ id, resolvedSymbol start.base id = model.symbolAt id)
    (htypes : ∀ before state, before <+: tree.events → run tree start before = .ok state →
      ∀ id ∈ leftIds before, state.base.facts.typeOf id = model.facts.typeOf id)
    (hbefore : before <+: tree.events) (hrun : run tree start before = .ok state) :
    state.enclosing = before.foldl enclosingStep start.enclosing ∧
      state.base.diagnostics.toList = start.base.diagnostics.toList ++
        (leftAlong start.enclosing before).flatMap fun (enclosing, id, node) =>
          model.own tree enclosing id node := by
  refine run_induction tree (motive := fun before state =>
    state.enclosing = before.foldl enclosingStep start.enclosing ∧
      state.base.diagnostics.toList = start.base.diagnostics.toList ++
        (leftAlong start.enclosing before).flatMap fun (enclosing, id, node) =>
          model.own tree enclosing id node) ?_ ?_ hbefore hrun
  · exact ⟨rfl, by simp [leftAlong]⟩
  · rintro before event state next hwalk hrun ⟨henclosing, hdiagnostics⟩ hstep
    refine ⟨by simp [enclosing_step hstep, henclosing], ?_⟩
    rw [leftAlong_append, List.flatMap_append, ← List.append_assoc, ← hdiagnostics, ← henclosing]
    cases event with
    | enter id node =>
      obtain ⟨active, function, blockEntry, rfl⟩ := enter_frame tree state id hstep
      simp [leftAlong]
    | leave id node =>
      have hbefore : before <+: tree.events := (List.prefix_append _ _).trans hwalk
      have hreports := verdict_reports hwell model hwalk
        (((sameNames_run hrun).resolvedSymbol_eq id).trans (hsymbol id))
        (htypes before state hbefore hrun)
      -- Only a function changes which one is around, and it has no complaints itself.
      have hown : model.own tree (enclosingStep state.enclosing (.leave id node)) id node =
          model.own tree state.enclosing id node := by
        by_cases hfunction : node.label.isFunction
        · rw [model.own_function hfunction, model.own_function hfunction]
        · rw [enclosingStep, if_neg hfunction]
      cases hstep
      simp [diagnostics_leave, leftAlong, hreports, hown]

section Model

variable {builtins : Bool} {typed : TypingState}

theorem resolvedSymbol_eq_symbolAt {events : List Event} (hend : run tree start events = .ok typed)
    (id : NodeId) : resolvedSymbol start.base id = typed.base.toModel.symbolAt id :=
  ((sameNames_run hend).resolvedSymbol_eq id).symm

theorem typeOf_run_ty (hwell : tree.WellLinked)
    (hend : run tree ⟨Resolution.run (.start builtins) tree.events, none⟩ tree.events = .ok typed)
    (hbefore : before <+: tree.events)
    (hrun : run tree ⟨Resolution.run (.start builtins) tree.events, none⟩ before = .ok state)
    (id : NodeId) :
    state.base.facts.typeOf id =
      if id ∈ leftIds before then typed.base.toModel.ty tree id else none := by
  have hfresh : ∀ id, (Resolution.run (.start builtins) tree.events).facts.typeOf id = none := by
    intro id
    rw [Resolution.typeOf_run, State.start_facts]
    rfl
  exact typeOf_run hwell _ (resolvedSymbol_eq_symbolAt hend) hfresh hbefore hrun id

theorem typeOf_model (hwell : tree.WellLinked)
    (hend : run tree ⟨Resolution.run (.start builtins) tree.events, none⟩ tree.events = .ok typed)
    {id : NodeId} (hid : tree.Reachable id) :
    typed.base.toModel.facts.typeOf id = typed.base.toModel.ty tree id :=
  (typeOf_run_ty hwell hend (List.prefix_refl _) hend id).trans
    (if_pos ((Tree.mem_leftIds_events hwell).mpr hid))

theorem typeOf_run_eq (hwell : tree.WellLinked)
    (hend : run tree ⟨Resolution.run (.start builtins) tree.events, none⟩ tree.events = .ok typed) :
    ∀ before state, before <+: tree.events →
      run tree ⟨Resolution.run (.start builtins) tree.events, none⟩ before = .ok state →
        ∀ id ∈ leftIds before,
          state.base.facts.typeOf id = typed.base.toModel.facts.typeOf id := by
  intro before state hbefore hrun id hleft
  have hid : tree.Reachable id := by
    obtain ⟨after, hafter⟩ := hbefore
    rw [← Tree.mem_leftIds_events hwell, ← hafter, leftIds_append]
    exact List.mem_append_left _ hleft
  rw [typeOf_run_ty hwell hend hbefore hrun id, if_pos hleft, typeOf_model hwell hend hid]

end Model

end Typing

/-- No function of a forest, which stands inside of `around`, stands inside another one. -/
def Forest.FlatIn (around : List NodeId) (forest : Forest) : Prop :=
  ∀ before inner id node first second third rest,
    Leads Label.isFunction around forest before inner (.cons id node first second third rest) →
      node.label.isFunction → inner = []

/-- Where functions are not nested, leaving one means that there is none around. -/
theorem Forest.leftAlong_eq {around : List NodeId} {forest : Forest} (hflat : forest.FlatIn around)
    {enclosing : Option Enclosing} (haround : around = [] → enclosing = none) :
    Typing.leftAlong enclosing forest.events = forest.leftWithin enclosing ∧
      forest.events.foldl Typing.enclosingStep enclosing = enclosing := by
  induction forest generalizing around enclosing with
  | nil => exact ⟨rfl, rfl⟩
  | cons id node first second third rest ihFirst ihSecond ihThird ihRest =>
    have hsubFirst : first.FlatIn (Tree.enclose Label.isFunction id node around) :=
      fun _ _ _ _ _ _ _ _ hleads => hflat _ _ _ _ _ _ _ _ (.inside .first hleads)
    have hsubSecond : second.FlatIn (Tree.enclose Label.isFunction id node around) :=
      fun _ _ _ _ _ _ _ _ hleads => hflat _ _ _ _ _ _ _ _ (.inside .second hleads)
    have hsubThird : third.FlatIn (Tree.enclose Label.isFunction id node around) :=
      fun _ _ _ _ _ _ _ _ hleads => hflat _ _ _ _ _ _ _ _ (.inside .third hleads)
    have hsubRest : rest.FlatIn around :=
      fun _ _ _ _ _ _ _ _ hleads => hflat _ _ _ _ _ _ _ _ (.rest hleads)
    have hinside : Tree.enclose Label.isFunction id node around = [] →
        node.label.enclosing?.or enclosing = none := by
      intro hnil
      by_cases hfunction : node.label.isFunction
      · simp [Tree.enclose, hfunction] at hnil
      · rw [Tree.enclose, if_neg hfunction] at hnil
        rw [Label.enclosing?_eq_none hfunction, haround hnil]
        rfl
    -- A function is left with no other one around, anything else with the same one as before.
    have hleave : (if node.label.isFunction then none else node.label.enclosing?.or enclosing) =
        enclosing := by
      by_cases hfunction : node.label.isFunction
      · rw [if_pos hfunction, haround (hflat _ _ _ _ _ _ _ _ .here hfunction)]
      · rw [if_neg hfunction, Label.enclosing?_eq_none hfunction, Option.none_or]
    obtain ⟨hfirst, hfirstEnd⟩ := ihFirst hsubFirst hinside
    obtain ⟨hsecond, hsecondEnd⟩ := ihSecond hsubSecond hinside
    obtain ⟨hthird, hthirdEnd⟩ := ihThird hsubThird hinside
    obtain ⟨hrest, hrestEnd⟩ := ihRest hsubRest haround
    constructor
    · simp only [events_cons, Typing.leftAlong, Typing.leftAlong_append, Typing.enclosingStep,
        List.foldl_append, hfirst, hfirstEnd, hsecond, hsecondEnd, hthird, hthirdEnd, hleave, hrest,
        leftWithin]
    · simp only [events_cons, List.foldl_cons, List.foldl_append, Typing.enclosingStep, hfirstEnd,
        hsecondEnd, hthirdEnd, hleave, hrestEnd]

theorem Tree.FlatFunctions.flatIn {tree : Tree} (hwell : tree.WellLinked) (h : tree.FlatFunctions) :
    tree.forest.FlatIn [] := by
  intro before inner id node first second third rest hleads hfunction
  have hid := inside_of_leads hwell.unfolds (fun top htop => .root htop) hleads
  obtain ⟨_, hsub⟩ := hleads.unfolds hwell.unfolds
  cases hsub with
  | cons hnode => exact h id node inner hid hnode hfunction

/-- Where no function stands inside another one, the second pass adds the complaints of each node, in
the order a walk leaves them. -/
theorem diagnostics_eq_own {text : String} {tree : Tree} (h : Tree.ofText text = .ok tree)
    (hflat : tree.FlatFunctions) {builtins : Bool} {model : Model}
    (hmodel : analyze builtins tree = .ok model) :
    tree.leftWithin.map Prod.snd = tree.events.filterMap Event.left? ∧
    ∃ resolved, resolveNames tree (.start builtins) = .ok () resolved ∧
      model.diagnostics.toList = resolved.diagnostics.toList ++
        tree.leftWithin.flatMap fun (enclosing, id, node) => model.own tree enclosing id node := by
  have hwell := Tree.wellLinked_of_ofText h
  obtain ⟨hdepth, typed, hrun, -, rfl⟩ := analyze_eq_ok_iff.mp hmodel
  have hsymbol := fun id => ((Typing.sameNames_run hrun).resolvedSymbol_eq id).symm
  have hfresh : ∀ id,
      (Resolution.run (.start builtins) tree.events).facts.typeOf id = none := by
    intro id
    rw [Resolution.typeOf_run, State.start_facts]
    rfl
  have htype := fun before state (hbefore : before <+: tree.events)
      (hstate : Typing.run tree ⟨Resolution.run (.start builtins) tree.events, none⟩ before =
        .ok state) => Typing.typeOf_run hwell typed.base.toModel hsymbol hfresh hbefore hstate
  have htypes : ∀ before state, before <+: tree.events →
      Typing.run tree ⟨Resolution.run (.start builtins) tree.events, none⟩ before = .ok state →
      ∀ id ∈ leftIds before, state.base.facts.typeOf id = typed.base.toModel.facts.typeOf id := by
    intro before state hbefore hstate id hleft
    have hleftAll : id ∈ leftIds tree.events := by
      obtain ⟨after, hafter⟩ := hbefore
      rw [← hafter, leftIds_append]
      exact List.mem_append_left _ hleft
    rw [htype before state hbefore hstate id, if_pos hleft]
    exact ((htype _ _ (List.prefix_refl _) hrun id).trans (if_pos hleftAll)).symm
  refine ⟨tree.map_leftWithin, _, by rw [resolveNames_eq, if_pos hdepth], ?_⟩
  have hreports := (Typing.diagnostics_run hwell typed.base.toModel hsymbol htypes
    (List.prefix_refl _) hrun).2
  obtain ⟨hleft, -⟩ := Forest.leftAlong_eq (hflat.flatIn hwell) (fun _ => rfl)
  rw [Tree.events_forest] at hleft
  rw [hleft] at hreports
  exact hreports

/-- A function with something wrong in each line of its block: a condition, a value that is returned,
an operation, an index and an argument. -/
def scaledText : String :=
  "[0,[\x7b\"kind\":\"fun\",\"name\":\"f\",\"type\":\"void\",\"line\":1,\"children\":[1,2]\x7d,"
    ++ "\x7b\"kind\":\"param\",\"name\":\"n\",\"type\":\"integer\",\"line\":1\x7d,"
    ++ "\x7b\"kind\":\"compound\",\"line\":1,\"children\":[3,4]\x7d,"
    ++ "\x7b\"kind\":\"var\",\"name\":\"a\",\"type\":\"array\",\"line\":2\x7d,"
    ++ "\x7b\"kind\":\"while\",\"line\":3,\"children\":[5,7],\"sibling\":9\x7d,"
    ++ "\x7b\"kind\":\"call\",\"name\":\"f\",\"line\":3,\"children\":[6]\x7d,"
    ++ "\x7b\"kind\":\"const\",\"value\":1,\"line\":3\x7d,"
    ++ "\x7b\"kind\":\"return\",\"line\":4,\"children\":[8]\x7d,"
    ++ "\x7b\"kind\":\"const\",\"value\":1,\"line\":4\x7d,"
    ++ "\x7b\"kind\":\"op\",\"op\":\"times\",\"line\":5,\"children\":[10,11],\"sibling\":12\x7d,"
    ++ "\x7b\"kind\":\"id\",\"name\":\"a\",\"line\":5\x7d,"
    ++ "\x7b\"kind\":\"const\",\"value\":3,\"line\":5\x7d,"
    ++ "\x7b\"kind\":\"array_id\",\"name\":\"a\",\"line\":6,\"children\":[13],\"sibling\":14\x7d,"
    ++ "\x7b\"kind\":\"id\",\"name\":\"a\",\"line\":6\x7d,"
    ++ "\x7b\"kind\":\"call\",\"name\":\"f\",\"line\":7,\"children\":[15]\x7d,"
    ++ "\x7b\"kind\":\"id\",\"name\":\"a\",\"line\":7\x7d]]"

def scaledTree : Tree where
  nodes := #[
    ⟨.declaration ⟨.function, "f", .void, none⟩, 1, ⟨some 1, some 2, none⟩, none⟩,
    .leaf (.declaration ⟨.parameter, "n", .integer, none⟩) 1,
    ⟨.statement .block, 1, ⟨some 3, some 4, none⟩, none⟩,
    .leaf (.declaration ⟨.variable, "a", .array, none⟩) 2,
    ⟨.statement .whileDo, 3, ⟨some 5, some 7, none⟩, some 9⟩,
    ⟨.expression (.call "f"), 3, ⟨some 6, none, none⟩, none⟩,
    .leaf (.expression (.constant 1)) 3,
    ⟨.statement .ret, 4, ⟨some 8, none, none⟩, none⟩,
    .leaf (.expression (.constant 1)) 4,
    ⟨.expression (.operation .times), 5, ⟨some 10, some 11, none⟩, some 12⟩,
    .leaf (.expression (.identifier "a")) 5,
    .leaf (.expression (.constant 3)) 5,
    ⟨.expression (.element "a"), 6, ⟨some 13, none, none⟩, some 14⟩,
    .leaf (.expression (.identifier "a")) 6,
    ⟨.expression (.call "f"), 7, ⟨some 15, none, none⟩, none⟩,
    .leaf (.expression (.identifier "a")) 7]
  root := some 0

theorem ofText_scaledText : Tree.ofText scaledText = .ok scaledTree :=
  Tree.ofText_eq_ok
    (ofList_append (ofList_append (ofList_append (ofList_append (ofList_append (ofList_append
      (ofList_append (ofList_append (ofList_append (ofList_append (ofList_append (ofList_append
        (ofList_append (ofList_append (ofList_append rfl rfl) rfl) rfl) rfl) rfl) rfl) rfl) rfl)
          rfl) rfl) rfl) rfl) rfl) rfl) rfl)
    (by decide +kernel)

theorem flatFunctions_scaledTree : scaledTree.FlatFunctions := by
  have honly : ∀ id < 16, ∀ node ∈ scaledTree.node? id, node.label.isFunction → id = 0 := by decide
  have hunlinked : ∀ id, ¬scaledTree.Links id 0 := by
    have hnone : ∀ node ∈ scaledTree.nodes, 0 ∉ node.links := by decide
    rintro id ⟨node, hnode, hlink⟩
    exact hnone node (Array.mem_of_getElem? hnode) hlink
  intro id node around hinside hnode hfunction
  obtain rfl := honly id (Array.getElem?_eq_some_iff.mp hnode).1 node hnode hfunction
  cases hinside with
  | root => rfl
  | child _ _ hparent hchild => exact absurd (Tree.links_of_child hparent hchild) (hunlinked _)
  | sibling _ hbefore hsibling => exact absurd (Tree.links_of_sibling hbefore hsibling) (hunlinked _)

def scaledReports : List Diagnostic := [
  ⟨4, .returnTypeMismatch "f" .void (some .integer)⟩,
  ⟨3, .voidCondition .whileDo⟩,
  ⟨5, .arrayArithmetic .times⟩,
  ⟨6, .indexTypeError "a" .array⟩,
  ⟨7, .argTypeMismatch "f" 1 .integer .array⟩]

set_option maxRecDepth 2000 in
theorem diagnostics_scaledTree :
    Tree.ofText scaledText = .ok scaledTree ∧ scaledTree.FlatFunctions ∧
      ∃ model, analyze false scaledTree = .ok model ∧
        model.diagnostics.toList = scaledReports := by
  obtain ⟨model, hmodel, hown⟩ : ∃ model, analyze false scaledTree = .ok model ∧
      (scaledTree.leftWithin.flatMap fun (enclosing, id, node) =>
        model.own scaledTree enclosing id node) = scaledReports := ⟨_, rfl, by decide +kernel⟩
  obtain ⟨-, resolved, hresolved, hreports⟩ :=
    diagnostics_eq_own ofText_scaledText flatFunctions_scaledTree hmodel
  have hnone : resolved.diagnostics.toList = [] := by
    cases hresolved
    rfl
  refine ⟨ofText_scaledText, flatFunctions_scaledTree, model, hmodel, ?_⟩
  rw [hreports, hown, hnone, List.nil_append]

end ScopeCheck
