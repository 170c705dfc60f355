import ScopeCheck.Proofs.Analysis.Complaints
import ScopeCheck.Proofs.Tree.Renaming

namespace ScopeCheck

namespace Fault

def rename (f : String → String) : Fault → Fault
  | duplicateDeclaration name => duplicateDeclaration (f name)
  | undeclaredIdentifier name => undeclaredIdentifier (f name)
  | indexTypeError name found => indexTypeError (f name) found
  | arityMismatch callee expected found => arityMismatch (f callee) expected found
  | voidArgument callee position => voidArgument (f callee) position
  | argTypeMismatch callee position expected found =>
    argTypeMismatch (f callee) position expected found
  | returnTypeMismatch function expected found => returnTypeMismatch (f function) expected found
  | fault => fault

theorem rename_id (fault : Fault) : fault.rename (fun name => name) = fault := by
  cases fault <;> rfl

end Fault

def Diagnostic.rename (f : String → String) (diagnostic : Diagnostic) : Diagnostic :=
  { diagnostic with fault := diagnostic.fault.rename f }

theorem Diagnostic.rename_id (diagnostic : Diagnostic) :
    diagnostic.rename (fun name => name) = diagnostic := by
  rw [rename, Fault.rename_id]

def Enclosing.rename (f : String → String) (function : Enclosing) : Enclosing :=
  { function with name := f function.name }

/-- What the typing rules look at in a symbol. -/
def Symbol.role (symbol : Symbol) : DeclarationKind × ValueType × Origin :=
  (symbol.kind, symbol.type, symbol.origin)

namespace Report

variable (f : String → String)

theorem operation_rename (line : UInt32) (op : Operator) (left right : Operand) :
    (operation line op left right).map (Diagnostic.rename f) = operation line op left right := by
  have hnone : ∀ diagnostic ∈ operation line op left right, diagnostic.rename f = diagnostic := by
    obtain ⟨leftLine, leftType⟩ := left
    obtain ⟨rightLine, rightType⟩ := right
    rcases leftType with _ | (_ | _ | _) <;> rcases rightType with _ | (_ | _ | _) <;>
      cases op <;> simp [operation, Diagnostic.rename, Fault.rename]
  exact (List.map_congr_left hnone).trans (List.map_id' _)

theorem element_rename (name : String) (index : Option Operand) :
    (element name index).map (Diagnostic.rename f) = element (f name) index := by
  rcases index with _ | ⟨line, _ | (_ | _ | _)⟩ <;> rfl

theorem argument_rename (callee : String) (item : (Operand × ValueType) × Nat) :
    (argument callee item).map (Diagnostic.rename f) = argument (f callee) item := by
  obtain ⟨⟨⟨line, type⟩, expected⟩, position⟩ := item
  cases type with
  | none => rfl
  | some found =>
    simp only [argument]
    split
    · rfl
    · split <;> rfl

theorem call_rename (line : UInt32) (callee : String) (params : List ValueType)
    (args : List Operand) :
    (call line callee params args).map (Diagnostic.rename f) = call line (f callee) params args := by
  have hfirst : ((args.zip params).zipIdx 1).findSome? (argument (f callee)) =
      (((args.zip params).zipIdx 1).findSome? (argument callee)).map (Diagnostic.rename f) := by
    rw [List.map_findSome?]
    congr 1
    funext item
    exact (argument_rename f callee item).symm
  rw [call, call, hfirst]
  cases ((args.zip params).zipIdx 1).findSome? (argument callee) with
  | some complaint => rfl
  | none =>
    simp only [Option.map_none]
    split <;> rfl

theorem condition_rename (stmt : Statement) (value : Option Operand) :
    (condition stmt value).map (Diagnostic.rename f) = condition stmt value := by
  rw [condition, List.map_map]
  rfl

theorem ret_rename (line : UInt32) (function : Enclosing) (value : Option Operand) :
    (ret line function value).map (Diagnostic.rename f) = ret line (function.rename f) value := by
  simp only [ret, Enclosing.rename]
  split
  · rfl
  · rw [apply_ite (List.map (Diagnostic.rename f))]
    rfl

end Report

theorem Expression.typeFrom_congr (f : String → String) (expr : Expression)
    {symbol other : Option Symbol} (h : other.map Symbol.role = symbol.map Symbol.role)
    (first second : Option ValueType) :
    (expr.rename f).typeFrom other first second = expr.typeFrom symbol first second := by
  cases symbol with
  | none =>
    rw [Option.map_none, Option.map_eq_none_iff] at h
    subst h
    cases expr <;> rfl
  | some symbol =>
    obtain ⟨other, rfl, hrole⟩ := Option.map_eq_some_iff.mp h
    obtain ⟨hkind, htype, -⟩ : other.kind = symbol.kind ∧ other.type = symbol.type ∧
        other.origin = symbol.origin := by simpa [Symbol.role] using hrole
    cases expr with
    | call callee => simp [rename, typeFrom, hkind, htype]
    | identifier name => simp [rename, typeFrom, htype]
    | element name => simp [rename, typeFrom]
    | operation op => cases op <;> rfl
    | constant value => rfl

namespace Model

def roleAt (model : Model) (id : NodeId) : Option (DeclarationKind × ValueType × Origin) :=
  (model.symbolAt id).map Symbol.role

end Model

theorem Forest.headType_mapNodes {change : NodeId → Node → Node} {symbolAt other : NodeId → Option Symbol}
    {forest : Forest} (hrole : ∀ id ∈ forest.ids,
      (other id).map Symbol.role = (symbolAt id).map Symbol.role)
    (hchange : ∀ id node, ∃ f, (change id node).label = node.label.rename f) :
    (forest.mapNodes change).headType other = forest.headType symbolAt := by
  induction forest with
  | nil => rfl
  | cons id node first second third rest ihFirst ihSecond _ _ =>
    simp only [Forest.ids_cons, List.mem_cons, List.mem_append] at hrole
    obtain ⟨f, hlabel⟩ := hchange id node
    rw [mapNodes, headType, headType, hlabel,
      ihFirst fun other hmem => hrole other (.inr (.inl (.inl (.inl hmem)))),
      ihSecond fun other hmem => hrole other (.inr (.inl (.inl (.inr hmem))))]
    cases node.label with
    | statement stmt => rfl
    | declaration decl => rfl
    | expression expr => exact expr.typeFrom_congr f (hrole id (.inl rfl)) _ _

namespace Label

variable (f : String → String) (label : Label)

theorem isFunction_rename : (label.rename f).isFunction = label.isFunction := by
  cases label <;> rfl

theorem isBlock_rename : (label.rename f).isBlock = label.isBlock := by
  cases label <;> rfl

theorem opening?_rename : (label.rename f).opening? = label.opening? := by
  cases label with
  | statement stmt => cases stmt <;> rfl
  | expression expr => rfl
  | declaration decl => rfl

theorem declares?_rename : (label.rename f).declares? = label.declares?.map (Declaration.rename f) := by
  cases label with
  | statement stmt => rfl
  | expression expr => rfl
  | declaration decl =>
    simp only [rename, declares?, Declaration.rename]
    split <;> rfl

theorem uses?_rename : (label.rename f).uses? = label.uses?.map f := by
  cases label with
  | statement stmt => rfl
  | declaration decl => rfl
  | expression expr => cases expr <;> rfl

theorem enclosing?_rename {g : String → String}
    (h : ∀ decl, label = .declaration decl → decl.kind = .function → f decl.name = g decl.name) :
    (label.rename f).enclosing? = label.enclosing?.map (Enclosing.rename g) := by
  cases label with
  | statement stmt => rfl
  | expression expr => rfl
  | declaration decl =>
    simp only [rename, enclosing?, Declaration.rename]
    split
    · rename_i hkind
      rw [h decl rfl hkind]
      rfl
    · rfl

variable {label}

theorem name?_of_declares? {decl : Declaration} (h : label.declares? = some decl) :
    label.name? = some decl.name := by
  rw [(eq_declaration h).1]
  rfl

theorem name?_of_uses? {name : String} (h : label.uses? = some name) :
    label.name? = some name := by
  obtain ⟨expr, rfl, hname⟩ := eq_expression h
  exact hname

end Label

/-- A function gets its name from `function`. A statement is complained about under the name of the
function around it, so it sees names as `function` does. -/
structure Tree.RenamesFunctions (tree : Tree) (names : NodeId → String → String)
    (function : String → String) : Prop where
  declaration : ∀ id node decl, (id, node) ∈ tree.entered → node.label = .declaration decl →
    decl.kind = .function → names id decl.name = function decl.name
  statement : ∀ id node stmt, (id, node) ∈ tree.entered → node.label = .statement stmt →
    names id = function

theorem Tree.entered_rename (names : NodeId → String → String) (tree : Tree) :
    (tree.rename names).entered =
      tree.entered.map fun item => (item.1, item.2.rename (names item.1)) := by
  rw [entered, entered, events_rename]
  exact Event.filterMap_entered?_mapNode _ _

namespace Typing

theorem leftAlong_mapNode {change : NodeId → Node → Node} {function : Enclosing → Enclosing}
    (hfunction : ∀ id node, (change id node).label.isFunction = node.label.isFunction)
    (enclosing : Option Enclosing) {events : List Event}
    (h : ∀ id node, .enter id node ∈ events →
      (change id node).label.enclosing? = node.label.enclosing?.map function) :
    leftAlong (enclosing.map function) (events.map (Event.mapNode change)) =
      (leftAlong enclosing events).map fun item =>
        (item.1.map function, item.2.1, change item.2.1 item.2.2) := by
  induction events generalizing enclosing with
  | nil => rfl
  | cons event events ih =>
    have hrest := fun id node hmem => h id node (List.mem_cons_of_mem event hmem)
    cases event with
    | enter id node =>
      have hnext : enclosingStep (enclosing.map function) (.enter id (change id node)) =
          (enclosingStep enclosing (.enter id node)).map function := by
        rw [enclosingStep, enclosingStep, h id node List.mem_cons_self]
        cases node.label.enclosing? <;> rfl
      simp only [List.map_cons, Event.mapNode, leftAlong, hnext]
      exact ih _ hrest
    | leave id node =>
      have hnext : enclosingStep (enclosing.map function) (.leave id (change id node)) =
          (enclosingStep enclosing (.leave id node)).map function := by
        rw [enclosingStep, enclosingStep, hfunction]
        split <;> rfl
      simp only [List.map_cons, Event.mapNode, leftAlong, hnext]
      rw [ih _ hrest]

theorem parameters_rename (names : NodeId → String → String) (tree : Tree) (origin : Origin) :
    parameters (tree.rename names) origin = parameters tree origin := by
  cases origin with
  | builtin params => rfl
  | node id =>
    simp only [parameters, Tree.node?_rename]
    cases tree.node? id with
    | none => rfl
    | some function =>
      have htype : ∀ (f : String → String) (node : Node),
          parameterType? (node.rename f) = parameterType? node := by
        intro f node
        obtain ⟨label, line, children, sibling⟩ := node
        cases label with
        | statement stmt => rfl
        | expression expr => rfl
        | declaration decl =>
          obtain ⟨kind, name, type, size⟩ := decl
          cases kind <;> cases type <;> rfl
      simp only [Option.map_some, Tree.list, Node.child, Node.rename, Tree.chain_rename,
        List.filterMap_map]
      congr 1
      funext item
      exact htype _ item.2

end Typing

namespace Model

variable {model other : Model} {tree tree' : Tree} {id : NodeId} {node : Node} (f : String → String)

theorem own_rename {enclosing enclosing' : Option Enclosing}
    (hfirst : other.operand? tree' node.children.first = model.operand? tree node.children.first)
    (hsecond : other.operand? tree' node.children.second = model.operand? tree node.children.second)
    (hoperands : other.operands tree' node.children.first = model.operands tree node.children.first)
    (hrole : other.roleAt id = model.roleAt id)
    (hparameters : ∀ symbol, model.symbolAt id = some symbol →
      Typing.parameters tree' symbol.origin = Typing.parameters tree symbol.origin)
    (henclosing : ∀ stmt, node.label = .statement stmt →
      enclosing' = enclosing.map (Enclosing.rename f)) :
    other.own tree' enclosing' id (node.rename f) =
      (model.own tree enclosing id node).map (Diagnostic.rename f) := by
  obtain ⟨label, line, children, sibling⟩ := node
  simp only at hfirst hsecond hoperands henclosing
  cases label with
  | declaration decl => rfl
  | statement stmt =>
    cases stmt with
    | block => rfl
    | ifThen | whileDo =>
      simp only [own, Node.rename, Label.rename, hfirst, Report.condition_rename]
    | ret =>
      simp only [own, Node.rename, Label.rename, hfirst, henclosing .ret rfl]
      cases enclosing with
      | none => rfl
      | some function => exact (Report.ret_rename f ..).symm
  | expression expr =>
    cases expr with
    | constant value => rfl
    | identifier name => rfl
    | operation op =>
      simp only [own, Node.rename, Label.rename, Expression.rename, hfirst, hsecond]
      cases model.operand? tree children.first with
      | none => rfl
      | some left =>
        cases model.operand? tree children.second with
        | none => rfl
        | some right => exact (Report.operation_rename f ..).symm
    | element name =>
      simp only [own, Node.rename, Label.rename, Expression.rename, hfirst]
      cases hsymbol : model.symbolAt id with
      | none =>
        rw [roleAt, roleAt, hsymbol, Option.map_none, Option.map_eq_none_iff] at hrole
        simp [hrole]
      | some symbol =>
        rw [roleAt, roleAt, hsymbol, Option.map_some, Option.map_eq_some_iff] at hrole
        obtain ⟨symbol', hsymbol', -⟩ := hrole
        simp [hsymbol', Report.element_rename]
    | call callee =>
      simp only [own, Node.rename, Label.rename, Expression.rename, hoperands]
      cases hsymbol : model.symbolAt id with
      | none =>
        rw [roleAt, roleAt, hsymbol, Option.map_none, Option.map_eq_none_iff] at hrole
        simp [hrole]
      | some symbol =>
        rw [roleAt, roleAt, hsymbol, Option.map_some, Option.map_eq_some_iff] at hrole
        obtain ⟨symbol', hsymbol', hrole⟩ := hrole
        obtain ⟨hkind, -, horigin⟩ : symbol'.kind = symbol.kind ∧ symbol'.type = symbol.type ∧
            symbol'.origin = symbol.origin := by simpa [Symbol.role] using hrole
        simp only [hsymbol', hkind, horigin, hparameters symbol hsymbol]
        split
        · exact (Report.call_rename f ..).symm
        · rfl

end Model

/-- In two models the same names mean something, and what they mean has the same role. -/
structure Model.Alike (model other : Model) : Prop where
  role : ∀ id, other.roleAt id = model.roleAt id
  resolution : ∀ id, other.facts.resolution id = none ↔ model.facts.resolution id = none
  declared : ∀ id, other.facts.declared id = none ↔ model.facts.declared id = none

namespace Model

variable {names : NodeId → String → String} {function : String → String} {tree : Tree}
  {model other : Model}

theorem operand?_rename (htypes : other.facts.types = model.facts.types) (link : Option NodeId) :
    other.operand? (tree.rename names) link = model.operand? tree link := by
  refine Option.bind_congr fun id _ => ?_
  rw [Tree.node?_rename]
  cases tree.node? id with
  | none => rfl
  | some node => simp [Typing.operandOf, NodeFacts.typeOf, htypes, Node.rename]

theorem operands_rename (htypes : other.facts.types = model.facts.types) (link : Option NodeId) :
    other.operands (tree.rename names) link = model.operands tree link := by
  rw [operands, operands, Tree.chain_rename, List.map_map]
  congr 1
  funext item
  simp [Typing.operandOf, NodeFacts.typeOf, htypes, Node.rename]

namespace Alike

variable (h : model.Alike other)

include h

theorem ty_rename (id : NodeId) : other.ty (tree.rename names) id = model.ty tree id := by
  rw [ty, ty, Tree.size_rename, Tree.forestUpTo_rename]
  exact Forest.headType_mapNodes (fun id _ => h.role id) fun id node => ⟨names id, rfl⟩

theorem addType_rename : other.addType (tree.rename names) = model.addType tree := by
  funext types id
  rw [addType, addType, h.ty_rename]

theorem nameReports_rename (id : NodeId) (node : Node) (f : String → String) :
    other.facts.nameReports id (node.rename f) =
      (model.facts.nameReports id node).map (Diagnostic.rename f) := by
  simp only [NodeFacts.nameReports, Node.rename, Label.declares?_rename, Label.uses?_rename]
  cases node.label.declares? with
  | some decl =>
    simp only [Option.map_some, h.declared]
    split <;> rfl
  | none =>
    cases node.label.uses? with
    | some name =>
      simp only [Option.map_some, Option.map_none, h.resolution]
      split <;> rfl
    | none => rfl

theorem complaints_rename (hnames : tree.RenamesFunctions names function)
    (htypes : other.facts.types = model.facts.types) :
    other.complaints (tree.rename names) =
      (model.complaints tree).map fun found => (found.1, found.2.rename (names found.1)) := by
  have hleft : Typing.leftAlong none
      (tree.events.map (Event.mapNode fun id => Node.rename (names id))) =
        (Typing.leftAlong none tree.events).map fun item =>
          (item.1.map (Enclosing.rename function), item.2.1, item.2.2.rename (names item.2.1)) := by
    apply Typing.leftAlong_mapNode (fun id node => Label.isFunction_rename _ _) none
    intro id node hmem
    apply Label.enclosing?_rename
    exact fun decl => hnames.declaration id node decl (List.mem_filterMap.mpr ⟨_, hmem, rfl⟩)
  rw [complaints, complaints, Tree.entered_rename, Tree.events_rename, hleft, List.map_append,
    List.flatMap_map, List.flatMap_map, List.map_flatMap, List.map_flatMap]
  congr 1
  · refine List.flatMap_congr ?_
    rintro ⟨id, node⟩ -
    simp only [h.nameReports_rename, List.map_map]
    rfl
  · refine List.flatMap_congr ?_
    rintro ⟨enclosing, id, node⟩ hmem
    have hentered := Typing.mem_entered_of_leftAlong hmem
    have hown : other.own (tree.rename names) (enclosing.map (Enclosing.rename function)) id
        (node.rename (names id)) =
          (model.own tree enclosing id node).map (Diagnostic.rename (names id)) := by
      apply own_rename (names id) (operand?_rename htypes _) (operand?_rename htypes _)
        (operands_rename htypes _) (h.role id)
      · exact fun symbol _ => Typing.parameters_rename names tree symbol.origin
      · intro stmt hstmt
        rw [hnames.statement id node stmt hentered hstmt]
    simp only [hown, List.map_map]
    rfl

end Alike

end Model

end ScopeCheck
