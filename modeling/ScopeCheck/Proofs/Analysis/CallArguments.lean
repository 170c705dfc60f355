import ScopeCheck.Proofs.Analysis.NameAccounting
import ScopeCheck.Proofs.Tree.Interior

namespace ScopeCheck

namespace Report

/-- The argument at a place, counted from zero, has a type, and another one than the parameter. -/
def Unfit (params : List ValueType) (args : List Operand) (place : Nat) : Prop :=
  ∃ arg found expected, args[place]? = some arg ∧ arg.type = some found ∧
    params[place]? = some expected ∧ found ≠ expected

/-- What is said about a call at a line, with arguments where parameters of some types are expected:
one thing at most, and about the first argument that does not fit before anything else. -/
structure AboutCall (line : UInt32) (callee : String) (params : List ValueType) (args : List Operand)
    (reports : List Diagnostic) : Prop where
  first : ∀ place arg found expected, args[place]? = some arg → arg.type = some found →
    params[place]? = some expected → found ≠ expected →
      (∀ earlier < place, ¬ Unfit params args earlier) →
        reports = [⟨arg.line, if found = .void then .voidArgument callee (place + 1)
          else .argTypeMismatch callee (place + 1) expected found⟩]
  count : (∀ place, ¬ Unfit params args place) → args.length ≠ params.length →
    reports = [⟨line, .arityMismatch callee params.length args.length⟩]
  fits : (∀ place, ¬ Unfit params args place) → args.length = params.length → reports = []

variable {callee : String} {params : List ValueType} {args : List Operand}

theorem unfit_zero {arg : Operand} {expected : ValueType} :
    Unfit (expected :: params) (arg :: args) 0 ↔ ∃ found, arg.type = some found ∧ found ≠ expected := by
  simp [Unfit]

theorem unfit_succ {arg : Operand} {expected : ValueType} {place : Nat} :
    Unfit (expected :: params) (arg :: args) (place + 1) ↔ Unfit params args place := by
  simp [Unfit]

theorem argument_eq_none {arg : Operand} {expected : ValueType} {position : Nat}
    (hvoid : expected ≠ .void) (h : ¬ ∃ found, arg.type = some found ∧ found ≠ expected) :
    argument callee ((arg, expected), position) = none := by
  obtain ⟨line, _ | found⟩ := arg
  · rfl
  · have hfound : found = expected := by
      by_contra hne
      exact h ⟨found, rfl, hne⟩
    rw [argument, if_neg (hfound ▸ hvoid), if_pos hfound]

theorem argument_eq_some {arg : Operand} {found expected : ValueType} {position : Nat}
    (htype : arg.type = some found) (hne : found ≠ expected) :
    argument callee ((arg, expected), position) =
      some ⟨arg.line, if found = .void then .voidArgument callee position
        else .argTypeMismatch callee position expected found⟩ := by
  obtain ⟨line, type⟩ := arg
  obtain rfl : type = some found := htype
  by_cases hvoid : found = .void
  · simp [argument, hvoid]
  · simp [argument, hvoid, hne]

theorem findSome?_argument_eq_none (hvoid : .void ∉ params)
    (h : ∀ place, ¬ Unfit params args place) (position : Nat) :
    ((args.zip params).zipIdx position).findSome? (argument callee) = none := by
  induction args generalizing params position with
  | nil => rfl
  | cons arg args ih =>
    cases params with
    | nil => rfl
    | cons expected params =>
      obtain ⟨hexpected, hvoid⟩ := not_or.mp (mt List.mem_cons.mpr hvoid)
      have hfirst : argument callee ((arg, expected), position) = none :=
        argument_eq_none (Ne.symm hexpected) (mt unfit_zero.mpr (h 0))
      simp only [List.zip_cons_cons, List.zipIdx_cons, List.findSome?_cons, hfirst]
      exact ih hvoid (fun place => mt unfit_succ.mpr (h (place + 1))) (position + 1)

theorem findSome?_argument_eq_some (hvoid : .void ∉ params) {place : Nat} {arg : Operand}
    {found expected : ValueType} (harg : args[place]? = some arg) (htype : arg.type = some found)
    (hexpected : params[place]? = some expected) (hne : found ≠ expected)
    (hfirst : ∀ earlier < place, ¬ Unfit params args earlier) (position : Nat) :
    ((args.zip params).zipIdx position).findSome? (argument callee) =
      some ⟨arg.line, if found = .void then .voidArgument callee (position + place)
        else .argTypeMismatch callee (position + place) expected found⟩ := by
  induction args generalizing params place position with
  | nil => simp at harg
  | cons head args ih =>
    cases params with
    | nil => simp at hexpected
    | cons top params =>
      obtain ⟨htop, hvoid⟩ := not_or.mp (mt List.mem_cons.mpr hvoid)
      simp only [List.zip_cons_cons, List.zipIdx_cons, List.findSome?_cons]
      cases place with
      | zero =>
        obtain rfl : head = arg := by simpa using harg
        obtain rfl : top = expected := by simpa using hexpected
        rw [argument_eq_some htype hne]
        rfl
      | succ place =>
        have hhead : argument callee ((head, top), position) = none :=
          argument_eq_none (Ne.symm htop) (mt unfit_zero.mpr (hfirst 0 (Nat.succ_pos place)))
        have hrest := ih hvoid (by simpa using harg) (by simpa using hexpected)
          (fun earlier hearlier => mt unfit_succ.mpr (hfirst (earlier + 1) (by omega)))
          (position + 1)
        rw [hhead, show position + (place + 1) = position + 1 + place by omega]
        exact hrest

theorem aboutCall (line : UInt32) (callee : String) (hvoid : .void ∉ params)
    (args : List Operand) : AboutCall line callee params args (call line callee params args) where
  first place arg found expected harg htype hexpected hne hfirst := by
    rw [call, findSome?_argument_eq_some hvoid harg htype hexpected hne hfirst, Nat.add_comm 1 place]
  count hnone hlength := by
    rw [call, findSome?_argument_eq_none hvoid hnone]
    exact if_neg hlength
  fits hnone hlength := by
    rw [call, findSome?_argument_eq_none hvoid hnone]
    exact if_pos hlength

end Report

namespace Forest

def parameterTypes (params : Forest) : List ValueType :=
  ((params.spine.filterMap fun item => item.2.label.declaration?).filter
    fun decl => decl.kind = .parameter ∧ decl.type ≠ .void).map Declaration.type

theorem void_not_mem_parameterTypes (params : Forest) : .void ∉ params.parameterTypes := by
  simp [parameterTypes]

theorem filterMap_parameterType? (params : Forest) :
    (params.spine.filterMap fun item => Typing.parameterType? item.2) = params.parameterTypes := by
  rw [parameterTypes]
  induction params.spine with
  | nil => rfl
  | cons item items ih =>
    obtain ⟨id, ⟨label, line, children, sibling⟩⟩ := item
    cases label with
    | statement stmt => exact ih
    | expression expr => exact ih
    | declaration decl =>
      obtain ⟨_ | _ | _, name, type, size⟩ := decl
      · exact ih
      · exact ih
      · cases type with
        | void => exact ih
        | integer | array => exact congrArg (List.cons _) ih

end Forest

namespace Tree

/-- What a function symbol takes and returns: of a builtin this is listed, of a function of the tree it
is read off the node. -/
inductive Signature (tree : Tree) (symbol : Symbol) : List ValueType → ValueType → Prop
  | builtin {builtin : Builtin} (hmem : builtin ∈ Builtin.all)
      (hsymbol : symbol.toDefinition = builtin.definition) :
      Signature tree symbol builtin.params builtin.type
  | declared {id : NodeId} {node : Node} {decl : Declaration} {params : Forest}
      (hid : tree.Reachable id) (hnode : tree.node? id = some node)
      (hlabel : node.label = .declaration decl) (hkind : decl.kind = .function)
      (hsymbol : symbol.toDefinition = ⟨decl.name, .function, decl.type, node.line, .node id⟩)
      (hparams : tree.Unfolds (node.child 0) params) :
      Signature tree symbol params.parameterTypes decl.type

namespace Signature

variable {tree : Tree} {symbol : Symbol} {params : List ValueType} {type : ValueType}

theorem void_not_mem (h : tree.Signature symbol params type) : .void ∉ params := by
  cases h with
  | builtin hmem =>
    have hlisted : ∀ builtin ∈ Builtin.all, .void ∉ builtin.params := by decide
    exact hlisted _ hmem
  | declared => exact Forest.void_not_mem_parameterTypes _

theorem type_eq (h : tree.Signature symbol params type) : symbol.type = type := by
  cases h with
  | builtin _ hsymbol => rw [hsymbol]; rfl
  | declared _ _ _ _ hsymbol => rw [hsymbol]

theorem parameters_eq (hwell : tree.WellLinked) (h : tree.Signature symbol params type) :
    Typing.parameters tree symbol.origin = params := by
  cases h with
  | builtin _ hsymbol =>
    rw [hsymbol]
    rfl
  | declared hid hnode _ _ hsymbol hparams =>
    rw [hsymbol]
    simp only [Typing.parameters, hnode]
    rw [hid.list_eq hwell hnode hparams, Forest.filterMap_parameterType?]

end Signature

end Tree

namespace Resolution

variable {tree : Tree}

theorem definition_cases (hwell : tree.WellLinked) {builtins : Bool} {id : SymbolId}
    {symbol : Symbol} (h : (run (.start builtins) tree.events).symbols.get? id = some symbol) :
    (∃ builtin ∈ Builtin.all, symbol.toDefinition = builtin.definition) ∨
      ∃ id node decl, (id, node) ∈ tree.entered ∧ node.label.declares? = some decl ∧
        symbol.toDefinition = ⟨decl.name, decl.kind, decl.type, node.line, .node id⟩ := by
  have hmem := SymbolTable.mem_definitions h
  rw [(accounts_run hwell builtins (List.prefix_refl tree.events)).definitions] at hmem
  rcases List.mem_append.mp hmem with hstart | hnode
  · obtain ⟨builtin, hbuiltin, hsymbol⟩ := exists_builtin hstart
    exact .inl ⟨builtin, hbuiltin, hsymbol.symm⟩
  · obtain ⟨⟨id, node⟩, hentered, hdefinition⟩ := List.mem_filterMap.mp hnode
    simp only [NodeFacts.definition?] at hdefinition
    split at hdefinition
    · cases hdefinition
    · obtain ⟨decl, hdeclares, hsymbol⟩ := Option.map_eq_some_iff.mp hdefinition
      exact .inr ⟨id, node, decl, hentered, hdeclares, hsymbol.symm⟩

theorem exists_signature (hwell : tree.WellLinked) {builtins : Bool} {id : SymbolId}
    {symbol : Symbol} (h : (run (.start builtins) tree.events).symbols.get? id = some symbol)
    (hkind : symbol.kind = .function) : ∃ params type, tree.Signature symbol params type := by
  rcases definition_cases hwell h with ⟨builtin, hmem, hsymbol⟩ |
    ⟨decl, node, function, hentered, hdeclares, hsymbol⟩
  · exact ⟨_, _, .builtin hmem hsymbol⟩
  · obtain ⟨hid, hnode⟩ := hwell.mem_entered_iff.mp hentered
    obtain ⟨hlabel, -⟩ := Label.eq_declaration hdeclares
    have hfunction : function.kind = .function := by
      rw [hsymbol] at hkind
      exact hkind
    obtain ⟨params, hparams⟩ := hid.exists_child_unfolds hwell hnode 0
    exact ⟨_, _, .declared hid hnode hlabel hfunction (hfunction ▸ hsymbol) hparams⟩

end Resolution

/-- When a node is left it is complained about for what follows from the types in the end, and it has
its own type then. -/
theorem Typing.exists_leave {tree : Tree} (hwell : tree.WellLinked) {builtins : Bool}
    {typed : TypingState}
    (hrun : run tree ⟨Resolution.run (.start builtins) tree.events, none⟩ tree.events = .ok typed)
    {id : NodeId} {node : Node} (hid : tree.Reachable id) (hnode : tree.node? id = some node) :
    ∃ before after state, tree.events = before ++ .leave id node :: after ∧
      run tree ⟨Resolution.run (.start builtins) tree.events, none⟩ before = .ok state ∧
      (leave tree state id node).base.diagnostics.toList = state.base.diagnostics.toList ++
        typed.base.toModel.own tree state.enclosing id node ∧
      (leave tree state id node).base.facts.typeOf id = typed.base.toModel.facts.typeOf id := by
  obtain ⟨before, after, hevents⟩ := List.append_of_mem (hwell.leave_mem_iff.mpr ⟨hid, hnode⟩)
  have hwalk : before ++ [.leave id node] <+: tree.events := ⟨after, by simp [hevents]⟩
  have hbefore := (List.prefix_append _ _).trans hwalk
  obtain ⟨state, hstate⟩ := exists_run_of_prefix tree hbefore hrun
  have htypes := typeOf_run_eq hwell hrun
  have hreports := verdict_reports hwell typed.base.toModel hwalk
    (((sameNames_run hstate).resolvedSymbol_eq id).trans (resolvedSymbol_eq_symbolAt hrun id))
    (htypes before state hbefore hstate)
  have hnext : run tree ⟨Resolution.run (.start builtins) tree.events, none⟩
      (before ++ [.leave id node]) = .ok (leave tree state id node) := by
    rw [run_concat, hstate]
    rfl
  exact ⟨before, after, state, hevents, hstate,
    by rw [diagnostics_leave, Array.toList_append, hreports],
    htypes _ _ hwalk hnext id (by simp)⟩

def Model.arguments (model : Model) (args : Forest) : List Operand :=
  args.spine.map fun item => ⟨item.2.line, model.facts.typeOf item.1⟩

/-- When a call of a function is left, the first argument that does not fit is complained about, or else
the number of its arguments, or else nothing; and the call has the type that the function returns. -/
theorem diagnostics_leave_call {text : String} {tree : Tree} (h : Tree.ofText text = .ok tree)
    {builtins : Bool} {model : Model} (hmodel : analyze builtins tree = .ok model) {id : NodeId}
    {node : Node} {callee : String} {symbol : Symbol} (hid : tree.Reachable id)
    (hnode : tree.node? id = some node) (hcall : node.label = .expression (.call callee))
    (hsymbol : model.symbolAt id = some symbol) (hkind : symbol.kind = .function) :
    ∃ params type args resolved before after state reports,
      tree.Signature symbol params type ∧ tree.Unfolds (node.child 0) args ∧
      resolveNames tree (.start builtins) = .ok () resolved ∧
      tree.events = before ++ .leave id node :: after ∧
      Typing.run tree ⟨resolved, none⟩ before = .ok state ∧
      (Typing.leave tree state id node).base.diagnostics.toList =
        state.base.diagnostics.toList ++ reports ∧
      Report.AboutCall node.line callee params (model.arguments args) reports ∧
      (Typing.leave tree state id node).base.facts.typeOf id = some type ∧
      model.facts.typeOf id = some type := by
  have hwell := Tree.wellLinked_of_ofText h
  obtain ⟨hdepth, typed, hrun, -, rfl⟩ := analyze_eq_ok_iff.mp hmodel
  obtain ⟨before, after, state, hevents, hstate, hreports, hlast⟩ :=
    Typing.exists_leave hwell hrun hid hnode
  obtain ⟨number, hnumber, hfound⟩ := Option.bind_eq_some_iff.mp hsymbol
  have hsymbols : typed.base.toModel.symbols =
      (Resolution.run (.start builtins) tree.events).symbols := (Typing.sameNames_run hrun).symbols
  obtain ⟨params, type, hsignature⟩ := Resolution.exists_signature hwell (hsymbols ▸ hfound) hkind
  obtain ⟨args, hargs⟩ := hid.exists_child_unfolds hwell hnode 0
  have hown : typed.base.toModel.own tree state.enclosing id node =
      Report.call node.line callee params (typed.base.toModel.arguments args) := by
    have hlist : tree.chain node.children.first = args.spine := hid.list_eq hwell hnode hargs
    simp only [Model.own, hcall, hsymbol, if_pos hkind, hsignature.parameters_eq hwell,
      Model.operands, hlist]
    rfl
  have htype : typed.base.toModel.facts.typeOf id = some type := by
    rw [Typing.typeOf_model hwell hrun hid, Model.ty_eq _ hwell hid hnode, hcall]
    simp [Expression.typeFrom, hsymbol, hkind, hsignature.type_eq]
  refine ⟨params, type, args, _, before, after, state, _, hsignature, hargs,
    by rw [resolveNames_eq, if_pos hdepth], hevents, hstate, hreports, ?_, hlast.trans htype, htype⟩
  rw [hown]
  exact Report.aboutCall _ _ hsignature.void_not_mem _

/-- A call with one argument too many. The first has no type, and the second is no array. -/
def lavishText : String :=
  "[0,[\x7b\"kind\":\"fun\",\"name\":\"f\",\"type\":\"integer\",\"children\":[1,3],\"sibling\":4\x7d,"
    ++ "\x7b\"kind\":\"param\",\"name\":\"a\",\"type\":\"integer\",\"sibling\":2\x7d,"
    ++ "\x7b\"kind\":\"param\",\"name\":\"b\",\"type\":\"array\"\x7d,"
    ++ "\x7b\"kind\":\"compound\"\x7d,"
    ++ "\x7b\"kind\":\"call\",\"name\":\"f\",\"line\":5,\"children\":[5]\x7d,"
    ++ "\x7b\"kind\":\"id\",\"name\":\"y\",\"line\":5,\"sibling\":6\x7d,"
    ++ "\x7b\"kind\":\"const\",\"value\":1,\"line\":6,\"sibling\":7\x7d,"
    ++ "\x7b\"kind\":\"const\",\"value\":2,\"line\":7\x7d]]"

def lavishTree : Tree where
  nodes := #[
    ⟨.declaration ⟨.function, "f", .integer, none⟩, 0, ⟨some 1, some 3, none⟩, some 4⟩,
    ⟨.declaration ⟨.parameter, "a", .integer, none⟩, 0, .empty, some 2⟩,
    .leaf (.declaration ⟨.parameter, "b", .array, none⟩) 0,
    .leaf (.statement .block) 0,
    ⟨.expression (.call "f"), 5, ⟨some 5, none, none⟩, none⟩,
    ⟨.expression (.identifier "y"), 5, .empty, some 6⟩,
    ⟨.expression (.constant 1), 6, .empty, some 7⟩,
    .leaf (.expression (.constant 2)) 7]
  root := some 0

theorem ofText_lavishText : Tree.ofText lavishText = .ok lavishTree :=
  Tree.ofText_eq_ok
    (ofList_append (ofList_append (ofList_append (ofList_append (ofList_append (ofList_append
      (ofList_append rfl rfl) rfl) rfl) rfl) rfl) rfl) rfl)
    (by decide +kernel)

/-- The argument that is not typed is passed over, but it keeps its place. -/
theorem diagnostics_leave_lavishTree :
    Tree.ofText lavishText = .ok lavishTree ∧ lavishTree.Reachable 4 ∧
      ∃ node model symbol resolved before after state,
        lavishTree.node? 4 = some node ∧ node.label = .expression (.call "f") ∧
        analyze true lavishTree = .ok model ∧ model.symbolAt 4 = some symbol ∧
        symbol.kind = .function ∧ resolveNames lavishTree (.start true) = .ok () resolved ∧
        lavishTree.events = before ++ .leave 4 node :: after ∧
        Typing.run lavishTree ⟨resolved, none⟩ before = .ok state ∧
        (Typing.leave lavishTree state 4 node).base.diagnostics.toList =
          state.base.diagnostics.toList ++ [⟨6, .argTypeMismatch "f" 2 .array .integer⟩] ∧
        model.facts.typeOf 4 = some .integer := by
  obtain ⟨model, hmodel⟩ : ∃ model, analyze true lavishTree = .ok model := ⟨_, rfl⟩
  obtain ⟨symbol, hsymbol, hkind, hreturns, htakes⟩ : ∃ symbol, model.symbolAt 4 = some symbol ∧
      symbol.kind = .function ∧ symbol.type = .integer ∧
      Typing.parameters lavishTree symbol.origin = [.integer, .array] := by
    cases hmodel
    exact ⟨_, rfl, rfl, rfl, rfl⟩
  have hwell := Tree.wellLinked_of_ofText ofText_lavishText
  have hid : lavishTree.Reachable 4 := .sibling (.root rfl) rfl rfl
  obtain ⟨params, type, args, resolved, before, after, state, reports, hsignature, hargs, hresolved,
    hevents, hstate, hreports, habout, -, htype⟩ :=
      diagnostics_leave_call ofText_lavishText hmodel hid rfl rfl hsymbol hkind
  rw [← hsignature.parameters_eq hwell, htakes] at habout
  have hspine : args.spine = lavishTree.list _ 0 := (hid.list_eq hwell rfl hargs).symm
  have harguments : model.arguments args =
      [⟨5, none⟩, ⟨6, some .integer⟩, ⟨7, some .integer⟩] := by
    rw [Model.arguments, hspine]
    cases hmodel
    rfl
  rw [harguments] at habout
  have hfirst := habout.first 1 _ .integer .array rfl rfl rfl (by decide) (by simp [Report.Unfit])
  rw [hfirst] at hreports
  rw [← hsignature.type_eq, hreturns] at htype
  exact ⟨ofText_lavishText, hid, _, model, symbol, resolved, before, after, state, rfl, rfl, hmodel,
    hsymbol, hkind, hresolved, hevents, hstate, hreports, htype⟩

end ScopeCheck
