import ScopeCheck.Proofs.Analysis.Lexical
import ScopeCheck.Proofs.Analysis.ResolutionReports
import ScopeCheck.Proofs.Analysis.TypingReports
import ScopeCheck.Proofs.Tree.Walk

namespace ScopeCheck

namespace Tree

/-- Something in a child slot that has a label of the kind `p`. -/
def HasPart (tree : Tree) (p : Label → Prop) (node : Node) (slot : Slot) : Prop :=
  ∃ child childNode, node.child slot = some child ∧ tree.node? child = some childNode ∧
    p childNode.label

def HasExpression (tree : Tree) (node : Node) (slot : Slot) : Prop :=
  tree.HasPart (fun label => ∃ expr, label = .expression expr) node slot

/-- No operand, index or body is missing. -/
structure HasParts (tree : Tree) : Prop where
  operands : ∀ id node op, tree.Reachable id → tree.node? id = some node →
    node.label = .expression (.operation op) → tree.HasExpression node 0 ∧ tree.HasExpression node 1
  index : ∀ id node name, tree.Reachable id → tree.node? id = some node →
    node.label = .expression (.element name) → tree.HasExpression node 0
  body : ∀ id node, tree.Reachable id → tree.node? id = some node → node.label.isFunction →
    tree.HasPart (fun label => label.isBlock) node 1

end Tree

namespace Model

/-- A call of what is no function, or an operation that has one among its operands, or further
down. -/
inductive RestsOnMiscall (model : Model) (tree : Tree) : NodeId → Prop
  | call {id : NodeId} {node : Node} {callee : String} {symbol : Symbol}
      (hnode : tree.node? id = some node) (hcall : node.label = .expression (.call callee))
      (hsymbol : model.symbolAt id = some symbol) (hkind : symbol.kind ≠ .function) :
      RestsOnMiscall model tree id
  | operand {id child : NodeId} {node : Node} {op : Operator} {slot : Slot}
      (hnode : tree.node? id = some node) (hop : node.label = .expression (.operation op))
      (hslot : slot = 0 ∨ slot = 1) (hchild : node.child slot = some child)
      (h : RestsOnMiscall model tree child) : RestsOnMiscall model tree id

/-- What a model says about a tree where nothing is complained about. -/
structure Quiet (model : Model) (tree : Tree) : Prop where
  types : ∀ id, tree.Reachable id → model.facts.typeOf id = model.ty tree id
  names : ∀ id node expr name, tree.Reachable id → tree.node? id = some node →
    node.label = .expression expr → expr.name? = some name →
      ∃ symbol, model.symbolAt id = some symbol
  silent : ∀ id node, tree.Reachable id → tree.node? id = some node →
    ∃ enclosing, model.own tree enclosing id node = []

end Model

namespace Resolution

variable {tree : Tree}

theorem exists_symbol (hwell : tree.WellLinked) {builtins : Bool}
    (hclean : (run (.start builtins) tree.events).diagnostics = #[]) {id : NodeId} {node : Node}
    (hid : tree.Reachable id) (hnode : tree.node? id = some node) {expr : Expression}
    {name : String} (hexpr : node.label = .expression expr) (hname : expr.name? = some name) :
    ∃ symbol, Typing.resolvedSymbol (run (.start builtins) tree.events) id = some symbol := by
  obtain ⟨before, after, hevents⟩ :=
    List.append_of_mem (hwell.enter_mem_iff.mpr ⟨hid, hnode⟩)
  have hreports := reports_eq_nil (hevents ▸ hclean)
  simp only [reports, hexpr, hname] at hreports
  cases hlookup : (run (.start builtins) before).lookup name with
  | none => simp [hlookup] at hreports
  | some found =>
    have hsound := sound_run (State.sound_start builtins) before
    obtain ⟨_, _, _, -, ⟨symbol, hsymbol, -⟩, -⟩ := hsound.lookup_eq_some_iff.mp hlookup
    have hgrows : (run (.start builtins) before).symbols.Extends
        (run (.start builtins) tree.events).symbols := (grows_rest hevents).symbols
    obtain ⟨newer, hnewer, -⟩ := hgrows found symbol hsymbol
    refine ⟨newer, ?_⟩
    rw [Typing.resolvedSymbol, resolution_use hwell builtins hevents hexpr hname, hlookup]
    exact hnewer

end Resolution

namespace Model

variable {tree : Tree} {model : Model} {id : NodeId} {node : Node}

theorem quiet_of_analyze (hwell : tree.WellLinked) {builtins : Bool}
    (hmodel : analyze builtins tree = .ok model) (hclean : model.diagnostics = #[]) :
    model.Quiet tree := by
  obtain ⟨-, typed, hrun, -, rfl⟩ := analyze_eq_ok_iff.mp hmodel
  have hsymbol := Typing.resolvedSymbol_eq_symbolAt hrun
  obtain ⟨-, hdiagnostics⟩ := Typing.diagnostics_run hwell typed.base.toModel hsymbol
    (Typing.typeOf_run_eq hwell hrun) (List.prefix_refl _) hrun
  have hnone : typed.base.diagnostics.toList = [] := congrArg Array.toList hclean
  rw [hnone] at hdiagnostics
  obtain ⟨hresolved, hown⟩ := List.append_eq_nil_iff.mp hdiagnostics.symm
  refine ⟨fun id hid => Typing.typeOf_model hwell hrun hid, ?_, ?_⟩
  · intro id node expr name hid hnode hexpr hname
    obtain ⟨symbol, hfound⟩ := Resolution.exists_symbol hwell
      (Array.toList_eq_nil_iff.mp hresolved) hid hnode hexpr hname
    exact ⟨symbol, (hsymbol id).symm.trans hfound⟩
  · intro id node hid hnode
    have hleft : (id, node) ∈ (Typing.leftAlong none tree.events).map Prod.snd := by
      rw [Typing.map_leftAlong, List.mem_filterMap]
      exact ⟨_, hwell.leave_mem_iff.mpr ⟨hid, hnode⟩, rfl⟩
    obtain ⟨⟨enclosing, _⟩, hmem, rfl⟩ := List.mem_map.mp hleft
    exact ⟨enclosing, List.flatMap_eq_nil_iff.mp hown _ hmem⟩

end Model

namespace Report

theorem typeFrom_operation {line leftLine rightLine : UInt32} {op : Operator}
    {left right : ValueType} (symbol : Option Symbol)
    (h : operation line op ⟨leftLine, some left⟩ ⟨rightLine, some right⟩ = []) :
    (Expression.operation op).typeFrom symbol (some left) (some right) ≠ none := by
  cases left <;> cases right <;> cases op <;> simp_all [operation, Expression.typeFrom]

theorem type_index {name : String} {line : UInt32} {type : Option ValueType}
    (h : element name (some ⟨line, type⟩) = []) : type = none ∨ type = some .integer := by
  cases type with
  | none => exact .inl rfl
  | some found => exact .inr (by simpa [element] using h)

end Report

namespace Model.Quiet

variable {tree : Tree} {model : Model} {id : NodeId} {node : Node}

theorem operand?_eq (h : model.Quiet tree) (hwell : tree.WellLinked) (hid : tree.Reachable id) :
    ∃ line, model.operand? tree (some id) = some ⟨line, model.ty tree id⟩ := by
  obtain ⟨node, hnode⟩ := Option.ne_none_iff_exists'.mp (hid.node_ne_none hwell)
  exact ⟨node.line, by simp [operand?, hnode, Typing.operandOf, h.types id hid]⟩

theorem ty_element (h : model.Quiet tree) (hwell : tree.WellLinked) (hid : tree.Reachable id)
    (hnode : tree.node? id = some node) {name : String}
    (hexpr : node.label = .expression (.element name)) : model.ty tree id = some .integer := by
  obtain ⟨symbol, hsymbol⟩ := h.names id node _ name hid hnode hexpr rfl
  obtain ⟨enclosing, hown⟩ := h.silent id node hid hnode
  have hindex : (node.child 0).bind (model.ty tree) = none ∨
      (node.child 0).bind (model.ty tree) = some .integer := by
    cases hslot : node.child 0 with
    | none => exact .inl rfl
    | some child =>
      have hfirst : node.children.first = some child := hslot
      obtain ⟨line, hoperand⟩ := h.operand?_eq hwell (hid.child 0 hnode hslot)
      simp only [own, hexpr, hsymbol, hfirst, hoperand, reduceCtorEq, if_false] at hown
      exact Report.type_index hown
  rw [model.ty_eq hwell hid hnode]
  simp only [hexpr, Expression.typeFrom, hsymbol]
  rcases hindex with hindex | hindex <;> simp [hindex]

theorem ty_operation (h : model.Quiet tree) (hwell : tree.WellLinked) (hid : tree.Reachable id)
    (hnode : tree.node? id = some node) {op : Operator}
    (hexpr : node.label = .expression (.operation op)) {left right : NodeId}
    (hleft : node.child 0 = some left) (hright : node.child 1 = some right)
    (hleftTy : model.ty tree left ≠ none) (hrightTy : model.ty tree right ≠ none) :
    model.ty tree id ≠ none := by
  obtain ⟨leftType, hleftTy⟩ := Option.ne_none_iff_exists'.mp hleftTy
  obtain ⟨rightType, hrightTy⟩ := Option.ne_none_iff_exists'.mp hrightTy
  obtain ⟨leftLine, hleftOperand⟩ := h.operand?_eq hwell (hid.child 0 hnode hleft)
  obtain ⟨rightLine, hrightOperand⟩ := h.operand?_eq hwell (hid.child 1 hnode hright)
  obtain ⟨enclosing, hown⟩ := h.silent id node hid hnode
  have hfirst : node.children.first = some left := hleft
  have hsecond : node.children.second = some right := hright
  simp only [own, hexpr, hfirst, hsecond, hleftOperand, hrightOperand, hleftTy, hrightTy] at hown
  rw [model.ty_eq hwell hid hnode]
  simp only [hexpr, hleft, hright, Option.bind_some, hleftTy, hrightTy]
  exact Report.typeFrom_operation _ hown

/-- The induction is on what an expression unfolds to, since operands are typed first. -/
theorem typed_or_rests (h : model.Quiet tree) (hwell : tree.WellLinked) (hparts : tree.HasParts)
    {start : Option NodeId} {forest : Forest} (hforest : tree.Unfolds start forest) :
    ∀ id node expr, start = some id → tree.Reachable id → tree.node? id = some node →
      node.label = .expression expr →
        model.ty tree id ≠ none ∨ model.RestsOnMiscall tree id := by
  induction hforest with
  | nil =>
    intro id node expr hstart
    cases hstart
  | @cons id node _ _ _ _ hnode _ _ _ _ ihFirst ihSecond _ _ =>
    rintro _ _ expr ⟨⟩ hid hnode' hexpr
    obtain rfl : node = _ := Option.some.inj (hnode.symm.trans hnode')
    have hty := model.ty_eq hwell hid hnode
    cases expr with
    | constant value =>
      simp only [hexpr, Expression.typeFrom] at hty
      exact .inl (by simp [hty])
    | identifier name =>
      obtain ⟨symbol, hsymbol⟩ := h.names id node _ name hid hnode hexpr rfl
      simp only [hexpr, Expression.typeFrom, hsymbol] at hty
      exact .inl (by simp [hty])
    | element name => exact .inl (by simp [h.ty_element hwell hid hnode hexpr])
    | call callee =>
      obtain ⟨symbol, hsymbol⟩ := h.names id node _ callee hid hnode hexpr rfl
      by_cases hkind : symbol.kind = .function
      · simp only [hexpr, Expression.typeFrom, hsymbol, Option.bind_some, if_pos hkind] at hty
        exact .inl (by simp [hty])
      · exact .inr (.call hnode hexpr hsymbol hkind)
    | operation op =>
      obtain ⟨⟨left, leftNode, hleft, hleftNode, leftExpr, hleftExpr⟩,
        ⟨right, rightNode, hright, hrightNode, rightExpr, hrightExpr⟩⟩ :=
        hparts.operands id node op hid hnode hexpr
      rcases ihFirst left leftNode leftExpr hleft (hid.child 0 hnode hleft) hleftNode hleftExpr with
        hleftTy | hrests
      · rcases ihSecond right rightNode rightExpr hright (hid.child 1 hnode hright) hrightNode
          hrightExpr with hrightTy | hrests
        · exact .inl (h.ty_operation hwell hid hnode hexpr hleft hright hleftTy hrightTy)
        · exact .inr (.operand hnode hexpr (.inr rfl) hright hrests)
      · exact .inr (.operand hnode hexpr (.inl rfl) hleft hrests)

end Model.Quiet

/-- Where nothing is complained about, every name that is used means something, every element is an
integer, and an expression without a type rests on a call of what is no function. -/
theorem clean_verdict {text : String} {tree : Tree} (h : Tree.ofText text = .ok tree)
    (hparts : tree.HasParts) {builtins : Bool} {model : Model}
    (hmodel : analyze builtins tree = .ok model) (hclean : model.diagnostics = #[]) :
    (∀ id node expr name, tree.Reachable id → tree.node? id = some node →
      node.label = .expression expr → expr.name? = some name →
        ∃ symbol, model.symbolAt id = some symbol) ∧
    (∀ id node name, tree.Reachable id → tree.node? id = some node →
      node.label = .expression (.element name) → model.facts.typeOf id = some .integer) ∧
    ∀ id node expr, tree.Reachable id → tree.node? id = some node →
      node.label = .expression expr →
        model.facts.typeOf id ≠ none ∨ model.RestsOnMiscall tree id := by
  have hwell := Tree.wellLinked_of_ofText h
  have hquiet := Model.quiet_of_analyze hwell hmodel hclean
  refine ⟨hquiet.names, ?_, ?_⟩
  · intro id node name hid hnode hexpr
    rw [hquiet.types id hid]
    exact hquiet.ty_element hwell hid hnode hexpr
  · intro id node expr hid hnode hexpr
    rw [hquiet.types id hid]
    exact hquiet.typed_or_rests hwell hparts (hid.unfolds hwell) id node expr rfl hid hnode hexpr

/-- An element of a variable is assigned to, and the variable is called. -/
def miscallText : String :=
  "[0,[\x7b\"kind\":\"var\",\"name\":\"x\",\"type\":\"integer\",\"line\":1,\"sibling\":1\x7d,"
    ++ "\x7b\"kind\":\"fun\",\"name\":\"main\",\"type\":\"void\",\"line\":2,\"children\":[null,2]\x7d,"
    ++ "\x7b\"kind\":\"compound\",\"line\":2,\"children\":[null,3]\x7d,"
    ++ "\x7b\"kind\":\"op\",\"op\":\"assign\",\"line\":3,\"children\":[5,7],\"sibling\":4\x7d,"
    ++ "\x7b\"kind\":\"call\",\"name\":\"x\",\"line\":4\x7d,"
    ++ "\x7b\"kind\":\"array_id\",\"name\":\"x\",\"line\":3,\"children\":[6]\x7d,"
    ++ "\x7b\"kind\":\"const\",\"line\":3,\"value\":0\x7d,"
    ++ "\x7b\"kind\":\"const\",\"line\":3,\"value\":1\x7d]]"

def miscallTree : Tree where
  nodes := #[
    ⟨.declaration ⟨.variable, "x", .integer, none⟩, 1, .empty, some 1⟩,
    ⟨.declaration ⟨.function, "main", .void, none⟩, 2, ⟨none, some 2, none⟩, none⟩,
    ⟨.statement .block, 2, ⟨none, some 3, none⟩, none⟩,
    ⟨.expression (.operation .assign), 3, ⟨some 5, some 7, none⟩, some 4⟩,
    .leaf (.expression (.call "x")) 4,
    ⟨.expression (.element "x"), 3, ⟨some 6, none, none⟩, none⟩,
    .leaf (.expression (.constant 0)) 3,
    .leaf (.expression (.constant 1)) 3]
  root := some 0

theorem ofText_miscallText : Tree.ofText miscallText = .ok miscallTree :=
  Tree.ofText_eq_ok
    (ofList_append (ofList_append (ofList_append (ofList_append (ofList_append (ofList_append
      (ofList_append rfl rfl) rfl) rfl) rfl) rfl) rfl) rfl)
    (by decide +kernel)

theorem hasParts_miscallTree : miscallTree.HasParts where
  operands id node op _ hnode hop := by
    match id with
    | 3 =>
      cases hnode
      exact ⟨⟨5, _, rfl, rfl, _, rfl⟩, ⟨7, _, rfl, rfl, _, rfl⟩⟩
    | 0 | 1 | 2 | 4 | 5 | 6 | 7 =>
      cases hnode
      cases hop
    | id + 8 => cases hnode
  index id node name _ hnode hindex := by
    match id with
    | 5 =>
      cases hnode
      exact ⟨6, _, rfl, rfl, _, rfl⟩
    | 0 | 1 | 2 | 3 | 4 | 6 | 7 =>
      cases hnode
      cases hindex
    | id + 8 => cases hnode
  body id node _ hnode hfunction := by
    match id with
    | 1 =>
      cases hnode
      exact ⟨2, _, rfl, rfl, rfl⟩
    | 0 | 2 | 3 | 4 | 5 | 6 | 7 =>
      cases hnode
      cases hfunction
    | id + 8 => cases hnode

theorem reachable_miscallTree : miscallTree.Reachable 3 ∧ miscallTree.Reachable 4 ∧
    miscallTree.Reachable 5 := by
  have hmain : miscallTree.Reachable 1 := .sibling (.root rfl) rfl rfl
  have hbody : miscallTree.Reachable 2 := .child 1 hmain rfl rfl
  have hassign : miscallTree.Reachable 3 := .child 1 hbody rfl rfl
  exact ⟨hassign, .sibling hassign rfl rfl, .child 0 hassign rfl rfl⟩

theorem clean_miscallTree :
    Tree.ofText miscallText = .ok miscallTree ∧ miscallTree.HasParts ∧
      ∃ model symbol, analyze true miscallTree = .ok model ∧ model.diagnostics = #[] ∧
        model.symbolAt 4 = some symbol ∧ model.facts.typeOf 5 = some .integer ∧
        (model.facts.typeOf 3 ≠ none ∨ model.RestsOnMiscall miscallTree 3) := by
  obtain ⟨hassign, hcall, helement⟩ := reachable_miscallTree
  obtain ⟨model, hmodel, hclean⟩ : ∃ model, analyze true miscallTree = .ok model ∧
      model.diagnostics = #[] := ⟨_, rfl, rfl⟩
  obtain ⟨hnames, helements, htyped⟩ :=
    clean_verdict ofText_miscallText hasParts_miscallTree hmodel hclean
  obtain ⟨symbol, hsymbol⟩ := hnames 4 _ _ "x" hcall rfl rfl rfl
  exact ⟨ofText_miscallText, hasParts_miscallTree, model, symbol, hmodel, hclean, hsymbol,
    helements 5 _ "x" helement rfl rfl, htyped 3 _ _ hassign rfl rfl⟩

/-- The variable is no array and no function, the call has no type, and nobody complains. -/
theorem uncomplaining_miscallTree :
    Tree.ofText miscallText = .ok miscallTree ∧ miscallTree.HasParts ∧
      ∃ model element call symbol, analyze true miscallTree = .ok model ∧ model.diagnostics = #[] ∧
        miscallTree.Reachable 5 ∧ miscallTree.node? 5 = some element ∧
        element.label = .expression (.element "x") ∧ model.symbolAt 5 = some symbol ∧
        symbol.type ≠ .array ∧
        miscallTree.Reachable 4 ∧ miscallTree.node? 4 = some call ∧
        call.label = .expression (.call "x") ∧ model.symbolAt 4 = some symbol ∧
        symbol.kind ≠ .function ∧ model.facts.typeOf 4 = none := by
  obtain ⟨-, hcall, helement⟩ := reachable_miscallTree
  exact ⟨ofText_miscallText, hasParts_miscallTree, _, _, _, _, rfl, rfl, helement, rfl, rfl, rfl,
    by decide, hcall, rfl, rfl, rfl, by decide, rfl⟩

end ScopeCheck
