import ScopeCheck.Proofs.Analysis.BlockScopes
import ScopeCheck.Proofs.Analysis.TypingStep
import ScopeCheck.Proofs.Document.Links
import ScopeCheck.Proofs.Tree.Positions

namespace ScopeCheck

/-- The type of an expression from the symbol that its name means and the types of what stands in its
first two child slots. -/
def Expression.typeFrom (expr : Expression) (symbol : Option Symbol)
    (first second : Option ValueType) : Option ValueType :=
  match expr with
  | .constant _ => some .integer
  | .identifier _ => symbol.map (·.type)
  | .element _ =>
    if symbol = none ∨ (first ≠ none ∧ first ≠ some .integer) then none else some .integer
  | .call _ => symbol.bind fun symbol => if symbol.kind = .function then some symbol.type else none
  | .operation .assign => if first = second ∧ first ≠ some .void then first else none
  | .operation _ =>
    if first = some .integer ∧ second = some .integer then some .integer else none

theorem Expression.typeFrom_operation_none {op : Operator} {symbol : Option Symbol}
    {first second : Option ValueType} (h : first = none ∨ second = none) :
    (operation op).typeFrom symbol first second = none := by
  rcases h with rfl | rfl
  · cases op <;> simp [typeFrom]
  · cases first <;> cases op <;> simp [typeFrom]

def Forest.headType (symbolAt : NodeId → Option Symbol) : Forest → Option ValueType
  | nil => none
  | cons id node first second _ _ =>
    match node.label with
    | .expression expr =>
      expr.typeFrom (symbolAt id) (first.headType symbolAt) (second.headType symbolAt)
    | _ => none

namespace Model

def symbolAt (model : Model) (id : NodeId) : Option Symbol :=
  (model.facts.resolution id).bind model.symbols.get?

/-- The type of a node, by recursion on what its links lead to. -/
def ty (model : Model) (tree : Tree) (id : NodeId) : Option ValueType :=
  (tree.forestUpTo tree.size (some id)).headType model.symbolAt

end Model

namespace Judgement

theorem operation_type (line : UInt32) (op : Operator) (left right : Operand) :
    (operation line op left right).type =
      (Expression.operation op).typeFrom none left.type right.type := by
  obtain ⟨leftLine, leftType⟩ := left
  obtain ⟨rightLine, rightType⟩ := right
  rcases leftType with _ | (_ | _ | _) <;> rcases rightType with _ | (_ | _ | _) <;>
    cases op <;> rfl

theorem element_type {name : String} {index : Option Operand} :
    (element name index).type =
      if index.bind (·.type) ≠ none ∧ index.bind (·.type) ≠ some .integer then none
      else some .integer := by
  rcases index with _ | ⟨line, _ | (_ | _ | _)⟩ <;> rfl

end Judgement

namespace Typing

variable {tree : Tree} {state : TypingState} {id : NodeId} {node : Node}

theorem judge_type (base : State) (expr : Expression) :
    (judge tree base id node expr).type =
      expr.typeFrom (resolvedSymbol base id) ((operand? tree base.facts node 0).bind (·.type))
        ((operand? tree base.facts node 1).bind (·.type)) := by
  cases expr with
  | constant value => rfl
  | identifier name => rfl
  | element name =>
    simp only [judge, Expression.typeFrom]
    cases resolvedSymbol base id with
    | none => rfl
    | some symbol =>
      rw [Judgement.element_type]
      simp
  | call callee =>
    simp only [judge, Expression.typeFrom]
    cases resolvedSymbol base id with
    | none => rfl
    | some symbol =>
      by_cases hkind : symbol.kind = .function
      · simp [hkind, Judgement.call]
      · simp [hkind, Verdict.untyped]
  | operation op =>
    simp only [judge]
    cases hleft : operand? tree base.facts node 0 with
    | none => exact (Expression.typeFrom_operation_none (.inl rfl)).symm
    | some left =>
      cases hright : operand? tree base.facts node 1 with
      | none => exact (Expression.typeFrom_operation_none (.inr rfl)).symm
      | some right =>
        simp only [Judgement.operation_type]
        cases op <;> rfl

/-- The second pass only reads what the first one found out about names. -/
structure SameNames (state last : State) : Prop where
  scopes : last.scopes = state.scopes
  symbols : last.symbols = state.symbols
  blocks : last.facts.scopes = state.facts.scopes
  resolutions : last.facts.resolutions = state.facts.resolutions
  declarations : last.facts.declarations = state.facts.declarations

theorem SameNames.refl (state : State) : SameNames state state := ⟨rfl, rfl, rfl, rfl, rfl⟩

theorem SameNames.trans {state next last : State} (h : SameNames state next)
    (h' : SameNames next last) : SameNames state last where
  scopes := h'.scopes.trans h.scopes
  symbols := h'.symbols.trans h.symbols
  blocks := h'.blocks.trans h.blocks
  resolutions := h'.resolutions.trans h.resolutions
  declarations := h'.declarations.trans h.declarations

theorem SameNames.scopeOf_eq {state last : State} (h : SameNames state last) (id : NodeId) :
    last.facts.scopeOf id = state.facts.scopeOf id := by
  rw [NodeFacts.scopeOf, NodeFacts.scopeOf, h.blocks]

theorem SameNames.resolution_eq {state last : State} (h : SameNames state last) (id : NodeId) :
    last.facts.resolution id = state.facts.resolution id := by
  rw [NodeFacts.resolution, NodeFacts.resolution, h.resolutions]

theorem SameNames.declared_eq {state last : State} (h : SameNames state last) (id : NodeId) :
    last.facts.declared id = state.facts.declared id := by
  rw [NodeFacts.declared, NodeFacts.declared, h.declarations]

theorem SameNames.resolvedSymbol_eq {state last : State} (h : SameNames state last) (id : NodeId) :
    resolvedSymbol last id = resolvedSymbol state id := by
  simp only [resolvedSymbol, h.resolution_eq, h.symbols]

theorem sameNames_step {event : Event} {next : TypingState}
    (h : step tree state event = .ok next) : SameNames state.base next.base := by
  cases event with
  | enter id node =>
    obtain ⟨active, function, blockEntry, rfl⟩ := enter_frame tree state id h
    exact ⟨rfl, rfl, rfl, rfl, rfl⟩
  | leave id node =>
    obtain ⟨active, function, types, diagnostics, hleave⟩ := leave_frame tree state id node
    cases h
    rw [hleave]
    exact ⟨rfl, rfl, rfl, rfl, rfl⟩

theorem sameNames_run {events : List Event} {last : TypingState}
    (h : run tree state events = .ok last) : SameNames state.base last.base := by
  induction events generalizing state with
  | nil =>
    cases h
    exact .refl _
  | cons event events ih =>
    obtain ⟨next, hstep, hrun⟩ := (run_cons_eq_ok tree).mp h
    exact (sameNames_step hstep).trans (ih hrun)

theorem facts_enter {next : TypingState} (h : step tree state (.enter id node) = .ok next) :
    next.base.facts = state.base.facts := by
  obtain ⟨active, function, blockEntry, rfl⟩ := enter_frame tree state id h
  rfl

theorem operand?_type {facts : NodeFacts} {slot : Slot}
    (hchild : ∀ child, node.child slot = some child → tree.node? child ≠ none) :
    (operand? tree facts node slot).bind (·.type) = (node.child slot).bind facts.typeOf := by
  cases hslot : node.child slot with
  | none => simp [operand?, hslot]
  | some child =>
    obtain ⟨childNode, hnode⟩ := Option.ne_none_iff_exists'.mp (hchild child hslot)
    simp [operand?, hslot, hnode, operandOf]

end Typing

namespace Model

variable {tree : Tree} (model : Model) {id : NodeId} {node : Node}

/-- The recursion: the type of a node comes from the types of its children. -/
theorem ty_eq (hwell : tree.WellLinked) (hid : tree.Reachable id)
    (hnode : tree.node? id = some node) :
    model.ty tree id =
      match node.label with
      | .expression expr =>
        expr.typeFrom (model.symbolAt id) ((node.child 0).bind (model.ty tree))
          ((node.child 1).bind (model.ty tree))
      | _ => none := by
  have hchild : ∀ slot forest, tree.Unfolds (node.child slot) forest →
      forest.headType model.symbolAt = (node.child slot).bind (model.ty tree) := by
    intro slot forest hforest
    cases hslot : node.child slot with
    | none =>
      rw [hslot] at hforest
      cases hforest
      rfl
    | some child =>
      rw [hslot] at hforest
      -- What a child unfolds to does not depend on where the walk comes from.
      rw [hforest.unique ((Tree.Reachable.child slot hid hnode hslot).unfolds hwell)]
      rfl
  have hunfolds := hid.unfolds hwell
  rw [ty]
  cases hforest : tree.forestUpTo tree.size (some id) with
  | nil =>
    rw [hforest] at hunfolds
    cases hunfolds
  | cons top topNode first second third rest =>
    rw [hforest] at hunfolds
    cases hunfolds with
    | cons htop hfirst hsecond _ _ =>
      obtain rfl : _ = _ := Option.some.inj (htop.symm.trans hnode)
      rw [Forest.headType, hchild 0 first hfirst, hchild 1 second hsecond]

end Model

namespace Typing

variable {tree : Tree} {start : TypingState} {before : List Event} {state : TypingState}

/-- What is found out about a node is its type by the recursion, once its children have theirs. -/
theorem verdict_type (hwell : tree.WellLinked) (model : Model) {id : NodeId} {node : Node}
    (hid : tree.Reachable id) (hnode : tree.node? id = some node)
    (hsymbol : resolvedSymbol state.base id = model.symbolAt id)
    (hchild : ∀ slot child, node.child slot = some child →
      state.base.facts.typeOf child = model.ty tree child) :
    (verdict tree state id node).type = model.ty tree id := by
  have hoperand : ∀ slot, (operand? tree state.base.facts node slot).bind (·.type) =
      (node.child slot).bind (model.ty tree) := by
    intro slot
    rw [operand?_type fun child hslot => (Tree.Reachable.child slot hid hnode hslot).node_ne_none hwell]
    exact Option.bind_congr fun child hslot => hchild slot child hslot
  rw [model.ty_eq hwell hid hnode, verdict]
  cases node.label with
  | statement stmt => rfl
  | declaration decl => rfl
  | expression expr => simp only [judge_type, hsymbol, hoperand]

/-- At any time of a walk the expressions that have been left have the types that the recursion
gives them, and no other node has a type. -/
theorem typeOf_run (hwell : tree.WellLinked) (model : Model)
    (hsymbol : ∀ id, resolvedSymbol start.base id = model.symbolAt id)
    (hfresh : ∀ id, start.base.facts.typeOf id = none) (hbefore : before <+: tree.events)
    (hrun : run tree start before = .ok state) (id : NodeId) :
    state.base.facts.typeOf id = if id ∈ leftIds before then model.ty tree id else none := by
  refine run_induction tree (motive := fun before state => ∀ id, state.base.facts.typeOf id =
    if id ∈ leftIds before then model.ty tree id else none) ?_ ?_ hbefore hrun id
  · intro id
    simpa using hfresh id
  · intro before event state next hwalk hrun ih hstep id
    cases event with
    | enter other node => simpa [facts_enter hstep] using ih id
    | leave other node =>
      cases hstep
      obtain ⟨hother, hnode, -⟩ := Tree.below_of_leave hwell hwalk
      rw [typeOf_leave]
      by_cases heq : other = id
      · subst heq
        -- It is left for the first time, and its children have been left before.
        have hnotLeft : other ∉ leftIds before :=
          Forest.not_mem_leftIds hwell.nodup_ids (Tree.events_forest tree ▸ hwalk)
        have htype : (verdict tree state other node).type = model.ty tree other := by
          apply verdict_type hwell model hother hnode
          · rw [(sameNames_run hrun).resolvedSymbol_eq, hsymbol]
          · intro slot child hchild
            rw [ih child, if_pos (Tree.child_mem_leftIds hwell hwalk hchild)]
        rw [if_pos rfl, htype, ih other, if_neg hnotLeft]
        simp
      · rw [if_neg heq, ih id]
        simp [Ne.symm heq]

end Typing

/-- The types of a model are those of the recursion: each reachable expression has the type that it
gives, and nothing else has a type. -/
theorem typeOf_eq_ty {text : String} {tree : Tree} (h : Tree.ofText text = .ok tree)
    {builtins : Bool} {model : Model} (hmodel : analyze builtins tree = .ok model) :
    (∀ id node expr, tree.Reachable id → tree.node? id = some node →
      node.label = .expression expr → model.facts.typeOf id = model.ty tree id) ∧
    ∀ id, (¬ ∃ node expr, tree.Reachable id ∧ tree.node? id = some node ∧
      node.label = .expression expr) → model.facts.typeOf id = none := by
  have hwell := Tree.wellLinked_of_ofText h
  obtain ⟨-, typed, hrun, -, rfl⟩ := analyze_eq_ok_iff.mp hmodel
  have hsame := Typing.sameNames_run hrun
  have htype := Typing.typeOf_run hwell typed.base.toModel
    (fun id => (hsame.resolvedSymbol_eq id).symm)
    (fun id => by rw [Resolution.typeOf_run, State.start_facts]; rfl) (List.prefix_refl _) hrun
  have hleft : ∀ id, id ∈ leftIds tree.events ↔ tree.Reachable id :=
    fun _ => Tree.mem_leftIds_events hwell
  refine ⟨fun id node expr hid hnode hexpr => ?_, fun id hnone => ?_⟩
  · exact (htype id).trans (if_pos ((hleft id).mpr hid))
  · by_cases hid : tree.Reachable id
    · obtain ⟨node, hnode⟩ := Option.ne_none_iff_exists'.mp (hid.node_ne_none hwell)
      refine ((htype id).trans (if_pos ((hleft id).mpr hid))).trans ?_
      rw [Model.ty_eq _ hwell hid hnode]
      split
      · rename_i expr hexpr
        exact absurd ⟨node, expr, hid, hnode, hexpr⟩ hnone
      · rfl
    · exact (htype id).trans (if_neg (mt (hleft id).mp hid))

def assignmentText : String :=
  "[0,[\x7b\"kind\":\"var\",\"name\":\"x\",\"type\":\"integer\",\"sibling\":1\x7d,"
    ++ "\x7b\"kind\":\"op\",\"op\":\"assign\",\"children\":[2,3]\x7d,"
    ++ "\x7b\"kind\":\"id\",\"name\":\"x\"\x7d,\x7b\"kind\":\"const\",\"value\":3\x7d]]"

def assignmentTree : Tree where
  nodes := #[
    ⟨.declaration ⟨.variable, "x", .integer, none⟩, 0, .empty, some 1⟩,
    ⟨.expression (.operation .assign), 0, ⟨some 2, some 3, none⟩, none⟩,
    .leaf (.expression (.identifier "x")) 0,
    .leaf (.expression (.constant 3)) 0]
  root := some 0

theorem ofText_assignmentText : Tree.ofText assignmentText = .ok assignmentTree :=
  Tree.ofText_eq_ok (ofList_append (ofList_append rfl rfl) rfl) (by decide +kernel)

theorem typeOf_assignmentTree :
    Tree.ofText assignmentText = .ok assignmentTree ∧
      ∃ model, analyze false assignmentTree = .ok model ∧
        model.facts.typeOf 1 = some .integer ∧ model.facts.typeOf 0 = none := by
  obtain ⟨model, hmodel, hty⟩ : ∃ model, analyze false assignmentTree = .ok model ∧
      model.ty assignmentTree 1 = some .integer := ⟨_, rfl, rfl⟩
  obtain ⟨htyped, huntyped⟩ := typeOf_eq_ty ofText_assignmentText hmodel
  refine ⟨ofText_assignmentText, model, hmodel, ?_, huntyped 0 ?_⟩
  · rw [htyped 1 _ _ (.sibling (.root rfl) rfl rfl) rfl rfl, hty]
  · rintro ⟨node, expr, -, hnode, hexpr⟩
    cases hnode
    cases hexpr
end ScopeCheck
