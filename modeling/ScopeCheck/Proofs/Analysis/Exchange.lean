import ScopeCheck.Proofs.Analysis.Confinement
import ScopeCheck.Proofs.Analysis.FunctionBody
import ScopeCheck.Proofs.Analysis.Interior
import ScopeCheck.Proofs.Analysis.NodeOrder
import ScopeCheck.Proofs.Analysis.Returns
import ScopeCheck.Proofs.Tree.Exchange

namespace ScopeCheck

/-- A function, or a variable with nothing below it. -/
def Node.IsItem (node : Node) (decl : Declaration) : Prop :=
  node.label = .declaration decl ∧
    (decl.kind = .function ∨ decl.kind = .variable ∧ node.children = .empty)

/-- A name is used inside of a node. -/
def Tree.UsesInside (tree : Tree) (outer : NodeId) (name : String) : Prop :=
  ∃ id node, tree.Encloses (fun _ => true) outer id ∧ tree.node? id = some node ∧
    node.label.uses? = some name

/-- Two neighbours in the outermost list that declare different names, neither of which is used inside
of the other one. -/
structure Tree.Independent (tree : Tree) (first second : NodeId) (node next : Node)
    (decl later : Declaration) : Prop where
  neighbours : tree.Neighbours first second node next
  item : node.IsItem decl
  nextItem : next.IsItem later
  name_ne : decl.name ≠ later.name
  unused : ¬ tree.UsesInside second decl.name
  unusedLater : ¬ tree.UsesInside first later.name

/-- One model says the same as the other one about every node, and complains about the same in another
order. -/
structure Model.Rearranged (model other : Model) : Prop where
  typeOf : ∀ id, other.facts.typeOf id = model.facts.typeOf id
  definition : ∀ id, (other.symbolAt id).map Symbol.toDefinition =
    (model.symbolAt id).map Symbol.toDefinition
  declared : ∀ id, other.facts.declared id = none ↔ model.facts.declared id = none
  diagnostics : other.diagnostics.toList.Perm model.diagnostics.toList

namespace Forest

theorem Shaped.of_append {before tail : Forest} (h : (before.append tail).Shaped) :
    before.Shaped ∧ tail.Shaped := by
  induction before with
  | nil => exact ⟨trivial, h⟩
  | cons id node first second third rest _ _ _ ihRest =>
    obtain ⟨hfunction, hfirst, hsecond, hthird, hrest⟩ := h
    obtain ⟨hbefore, htail⟩ := ihRest hrest
    exact ⟨⟨hfunction, hfirst, hsecond, hthird, hbefore⟩, htail⟩

end Forest

namespace Tree.Branch

variable {tree : Tree} {id : NodeId} {node : Node} {decl : Declaration} {forest : Forest}

theorem introduces (h : tree.Branch id node forest) (hitem : node.IsItem decl)
    (hshaped : forest.Shaped) :
    Environment.Introduces (decl.definition id node.line) forest.events := by
  obtain ⟨hlabel, hfunction | ⟨hvariable, hchildren⟩⟩ := hitem
  · cases h with
    | mk => exact Environment.introduces_function hlabel hfunction hshaped
  · cases h with
    | mk _ hfirst hsecond hthird =>
      rw [hchildren] at hfirst hsecond hthird
      cases hfirst
      cases hsecond
      cases hthird
      exact Environment.introduces_variable hlabel hvariable

theorem uses?_ne (h : tree.Branch id node forest) (hitem : node.IsItem decl) {name : String}
    (hinside : tree.Inside (fun _ => true) [] id) (hunused : ¬ tree.UsesInside id name)
    {inner : NodeId} {innerNode : Node} (hmem : .enter inner innerNode ∈ forest.events) :
    innerNode.label.uses? ≠ some name := by
  intro huses
  cases h with
  | @mk first second third hnode hfirst hsecond hthird =>
    have hslot : ∀ (slot : Slot) kid, tree.Unfolds (node.child slot) kid →
        (inner, innerNode) ∉ kid.entered := by
      intro slot kid hkid hentered
      obtain ⟨around, haround, hsuffix⟩ := hkid.inside_of_mem
        (fun top htop => .child slot hinside hnode htop) (Forest.id_mem_ids hentered)
      have hmem : id ∈ around := hsuffix.subset (by simp [enclose])
      exact hunused ⟨inner, innerNode, ⟨around, haround, hmem⟩, hkid.node_of_mem hentered, huses⟩
    -- The item itself is a declaration, and a declaration uses no name.
    rw [← Forest.mem_entered, Forest.entered_cons] at hmem
    simp only [Forest.entered_nil, List.append_nil, List.mem_cons, List.mem_append] at hmem
    rcases hmem with heq | (hmem | hmem) | hmem
    · cases heq
      rw [hitem.1] at huses
      cases huses
    · exact hslot 0 first hfirst hmem
    · exact hslot 1 second hsecond hmem
    · exact hslot 2 third hthird hmem

end Tree.Branch

/-- Between outermost items no function is around, so in either order they are left under the same
functions. -/
theorem Typing.leftAlong_exchange {before events later : List Event} (hbefore : Forgets before)
    (hevents : Forgets events) (hlater : Forgets later) (rest : List Event) :
    (leftAlong none (before ++ (later ++ (events ++ rest)))).Perm
      (leftAlong none (before ++ (events ++ (later ++ rest)))) := by
  simp only [leftAlong_append, hbefore.foldl_none, hevents.foldl_none, hlater.foldl_none]
  exact (List.perm_append_comm_assoc ..).append_left _

namespace Environment

theorem readings_mapNode {change : NodeId → Node → Node}
    (hlabel : ∀ id node, (change id node).label = node.label)
    (hline : ∀ id node, (change id node).line = node.line) (env : Environment) (events : List Event) :
    env.readings (events.map (Event.mapNode change)) = env.readings events := by
  induction events generalizing env with
  | nil => rfl
  | cons event events ih =>
    cases event with
    | enter id node =>
      have henter : env.enter id (change id node) = env.enter id node := by
        simp only [enter, hlabel, hline]
      have hreading : env.reading (change id node) = env.reading node := by
        simp only [reading, hlabel]
      rw [List.map_cons, Event.mapNode, readings, readings, henter, hreading, ih]
    | leave id node =>
      have hleave : env.leave (change id node) = env.leave node := by
        simp only [leave, hlabel]
      rw [List.map_cons, Event.mapNode, readings, readings, hleave, ih]

theorem Introduces.readings_exchange {definition other : Definition} {bindings : Bindings}
    {before events later : List Event} (hbefore : Balanced before) (h : Introduces definition events)
    (h' : Introduces other later) (hne : definition.name ≠ other.name)
    (hunused : ∀ id node, .enter id node ∈ later → node.label.uses? ≠ some definition.name)
    (hunused' : ∀ id node, .enter id node ∈ events → node.label.uses? ≠ some other.name)
    (rest : List Event) :
    (Environment.readings ⟨[bindings], .fresh⟩ (before ++ (later ++ (events ++ rest)))).Perm
      (Environment.readings ⟨[bindings], .fresh⟩ (before ++ (events ++ (later ++ rest)))) := by
  obtain ⟨found, hfound⟩ := hbefore bindings
  have hrun : Environment.run ⟨[bindings], .fresh⟩ before = ⟨[found], .fresh⟩ := hfound.run []
  obtain ⟨hend, hperm⟩ := h.exchange h' hne hunused hunused' found
  rw [← List.append_assoc later, ← List.append_assoc events, readings_append _ before,
    readings_append _ before, hrun, readings_append _ (_ ++ _), readings_append _ (_ ++ _), hend]
  exact (hperm.append_right _).append_left _

end Environment

theorem State.exists_environment_start (builtins : Bool) :
    ∃ bindings, (State.start builtins).environment = ⟨[bindings], .fresh⟩ := by
  cases builtins <;> exact ⟨_, rfl⟩

namespace Tree.Independent

variable {tree : Tree} {first second : NodeId} {node next : Node} {decl later : Declaration}
  (h : tree.Independent first second node next decl later) (hwell : tree.WellLinked)
  (hshaped : tree.FunctionShaped)

include h hwell hshaped

/-- A walk of the other tree meets the same nodes in another order, with other siblings, and finds the
same under their names. -/
theorem exists_events (builtins : Bool) : ∃ events,
    (tree.exchange first second).events = events.map (Event.mapNode (tree.trade first second)) ∧
      events.Perm tree.events ∧
      (Typing.leftAlong none events).Perm (Typing.leftAlong none tree.events) ∧
      ((State.start builtins).environment.readings events).Perm
        ((State.start builtins).environment.readings tree.events) := by
  obtain ⟨before, item, nextItem, rest, hitem, hnext, hforest, hforest'⟩ :=
    h.neighbours.exists_forest hwell
  obtain ⟨hfirst, hsecond⟩ := h.neighbours.inside hwell fun _ => true
  have hall := hshaped.forest_shaped hwell
  rw [hforest] at hall
  obtain ⟨hbefore, hall⟩ := hall.of_append
  obtain ⟨hitemShaped, hall⟩ := hall.of_append
  have hintroduces := hitem.introduces h.item hitemShaped
  have hintroduces' := hnext.introduces h.nextItem hall.of_append.1
  obtain ⟨bindings, hstart⟩ := State.exists_environment_start builtins
  have hevents : tree.events =
      before.events ++ (item.events ++ (nextItem.events ++ rest.events)) := by
    rw [← events_forest, hforest, Forest.events_append, Forest.events_append, Forest.events_append]
  refine ⟨before.events ++ (nextItem.events ++ (item.events ++ rest.events)), ?_, ?_, ?_, ?_⟩
  · rw [← events_forest, hforest', Forest.events_mapNodes, Forest.events_append,
      Forest.events_append, Forest.events_append]
  · rw [hevents]
    exact (List.perm_append_comm_assoc ..).append_left _
  · rw [hevents]
    exact Typing.leftAlong_exchange (Typing.forgets_events _) (Typing.forgets_events _)
      (Typing.forgets_events _) _
  · rw [hevents, hstart]
    exact hintroduces.readings_exchange (Environment.balanced_shaped hbefore).1 hintroduces' h.name_ne
      (fun _ _ => hnext.uses?_ne h.nextItem hsecond h.unused)
      (fun _ _ => hitem.uses?_ne h.item hfirst h.unusedLater) _

end Tree.Independent

theorem Model.symbolAt_eq_none_iff {tree : Tree} (hwell : tree.WellLinked) {builtins : Bool}
    {model : Model} (hmodel : analyze builtins tree = .ok model) {id : NodeId} :
    model.symbolAt id = none ↔ model.facts.resolution id = none := by
  constructor
  · intro hnone
    by_contra hsome
    obtain ⟨symbol, hsymbol⟩ := Option.ne_none_iff_exists'.mp hsome
    obtain ⟨-, typed, hrun, -, rfl⟩ := analyze_eq_ok_iff.mp hmodel
    have hsame := Typing.sameNames_run hrun
    obtain ⟨_, _, found, -, -, hfound, -⟩ :=
      Resolution.exists_resolved hwell ((hsame.resolution_eq id).symm.trans hsymbol)
    rw [← hsame.symbols] at hfound
    rw [symbolAt, hsymbol] at hnone
    cases hfound.symm.trans hnone
  · intro hnone
    rw [symbolAt, hnone, Option.bind_none]

namespace Tree.Independent

variable {tree : Tree} {first second : NodeId} {node next : Node} {decl later : Declaration}
  (h : tree.Independent first second node next decl later) (hwell : tree.WellLinked)
  (hshaped : tree.FunctionShaped) {builtins : Bool} {model other : Model}
  (hmodel : analyze builtins tree = .ok model)
  (hother : analyze builtins (tree.exchange first second) = .ok other)

include h hwell hshaped hmodel hother

omit hshaped in
theorem silent {id : NodeId} (hid : ¬ tree.Reachable id) :
    model.facts.Silent id ∧ other.facts.Silent id := by
  refine ⟨silent_of_not_reachable hwell hmodel hid,
    silent_of_not_reachable (h.neighbours.wellLinked hwell) hother fun hid' => hid ?_⟩
  exact (h.neighbours.reachable_iff hwell).mp hid'

theorem names_eq (id : NodeId) :
    (other.symbolAt id).map Symbol.toDefinition = (model.symbolAt id).map Symbol.toDefinition ∧
      (other.facts.declared id = none ↔ model.facts.declared id = none) := by
  have hwell' := h.neighbours.wellLinked hwell
  by_cases hid : tree.Reachable id
  · -- Both walks enter the node and find the same under its name, which decides both facts.
    obtain ⟨idNode, hnode⟩ := Option.ne_none_iff_exists'.mp (hid.node_ne_none hwell)
    have hnode' : (tree.exchange first second).node? id =
        some (tree.trade first second id idNode) := by
      rw [node?_exchange, hnode, Option.map_some]
    obtain ⟨events, hevents, -, -, hreadings⟩ := h.exists_events hwell hshaped builtins
    have hmem : id ∈ ((State.start builtins).environment.readings tree.events).map Prod.fst := by
      rw [Environment.map_readings]
      exact List.mem_map_of_mem (hwell.mem_entered_iff.mpr ⟨hid, hnode⟩)
    obtain ⟨⟨reached, found⟩, hfound, rfl⟩ := List.mem_map.mp hmem
    have hfound' : (reached, found) ∈
        (State.start builtins).environment.readings (tree.exchange first second).events := by
      rw [hevents, Environment.readings_mapNode (tree.trade_label first second)
        (tree.trade_line first second)]
      exact hreadings.mem_iff.mpr hfound
    constructor
    · rw [Model.definition_eq hwell hmodel hnode hfound,
        Model.definition_eq hwell' hother hnode' hfound']
      rfl
    · rw [Model.declared_eq_none_iff hwell hmodel hnode hfound,
        Model.declared_eq_none_iff hwell' hother hnode' hfound']
      rfl
  · obtain ⟨hsilent, hsilent'⟩ := h.silent hwell hmodel hother hid
    rw [Model.symbolAt, Model.symbolAt, hsilent.resolution, hsilent'.resolution, hsilent.declared,
      hsilent'.declared]
    exact ⟨rfl, Iff.rfl⟩

theorem roleAt_eq (id : NodeId) : other.roleAt id = model.roleAt id := by
  have hrole : ∀ found : Option Symbol, found.map Symbol.role =
      (found.map Symbol.toDefinition).map fun definition =>
        (definition.kind, definition.type, definition.origin) := by
    intro found
    cases found <;> rfl
  rw [Model.roleAt, Model.roleAt, hrole, hrole,
    (h.names_eq hwell hshaped hmodel hother id).1]

theorem typeOf_eq (id : NodeId) : other.facts.typeOf id = model.facts.typeOf id := by
  have hwell' := h.neighbours.wellLinked hwell
  have hroles := h.roleAt_eq hwell hshaped hmodel hother
  by_cases hid : tree.Reachable id
  · have hid' := (h.neighbours.reachable_iff hwell).mpr hid
    have hty : other.ty (tree.exchange first second) id = model.ty tree id :=
      (h.neighbours.sameInside hwell).ty_eq hwell hwell' hid fun id _ => hroles id
    obtain ⟨-, typed, hrun, -, rfl⟩ := analyze_eq_ok_iff.mp hmodel
    obtain ⟨-, typed', hrun', -, rfl⟩ := analyze_eq_ok_iff.mp hother
    rw [Typing.typeOf_model hwell hrun hid, Typing.typeOf_model hwell' hrun' hid', hty]
  · obtain ⟨hsilent, hsilent'⟩ := h.silent hwell hmodel hother hid
    rw [hsilent.typeOf, hsilent'.typeOf]

theorem nameReports_eq (id : NodeId) (idNode : Node) :
    other.facts.nameReports id idNode = model.facts.nameReports id idNode := by
  have hwell' := h.neighbours.wellLinked hwell
  obtain ⟨hdefinition, hdeclared⟩ := h.names_eq hwell hshaped hmodel hother id
  have hresolution : other.facts.resolution id = none ↔ model.facts.resolution id = none := by
    rw [← Model.symbolAt_eq_none_iff hwell hmodel, ← Model.symbolAt_eq_none_iff hwell' hother,
      ← Option.map_eq_none_iff, hdefinition, Option.map_eq_none_iff]
  simp only [NodeFacts.nameReports, hdeclared, hresolution]

theorem own_eq (enclosing : Option Enclosing) {id : NodeId} {idNode : Node}
    (hentered : (id, idNode) ∈ tree.entered) :
    other.own (tree.exchange first second) enclosing id idNode =
      model.own tree enclosing id idNode := by
  obtain ⟨hid, hnode⟩ := hwell.mem_entered_iff.mp hentered
  apply (h.neighbours.sameInside hwell).own_eq hwell (h.neighbours.wellLinked hwell) hid hnode
  · exact fun id _ => h.typeOf_eq hwell hshaped hmodel hother id
  · exact h.roleAt_eq hwell hshaped hmodel hother id
  · intro symbol origin hsymbol horigin
    obtain ⟨-, typed, hrun, -, rfl⟩ := analyze_eq_ok_iff.mp hmodel
    exact Model.reachable_of_origin hwell (Typing.sameNames_run hrun).symbols hsymbol horigin

theorem diagnostics_perm : other.diagnostics.toList.Perm model.diagnostics.toList := by
  obtain ⟨events, hevents, hperm, hleft, -⟩ := h.exists_events hwell hshaped builtins
  have hnames : ((tree.exchange first second).entered.flatMap fun item =>
      other.facts.nameReports item.1 item.2).Perm
        (tree.entered.flatMap fun item => model.facts.nameReports item.1 item.2) := by
    rw [entered, hevents, Event.filterMap_entered?_mapNode, List.flatMap_map]
    simp only [fun id idNode => h.nameReports_eq hwell hshaped hmodel hother id idNode]
    exact (hperm.filterMap _).flatMap_right _
  have htypes : ((Typing.leftAlong none (tree.exchange first second).events).flatMap fun item =>
      other.own (tree.exchange first second) item.1 item.2.1 item.2.2).Perm
        ((Typing.leftAlong none tree.events).flatMap fun item =>
          model.own tree item.1 item.2.1 item.2.2) := by
    have hown : ∀ item ∈ Typing.leftAlong none tree.events,
        model.own tree item.1 item.2.1 item.2.2 =
          other.own (tree.exchange first second) item.1 item.2.1 item.2.2 := by
      rintro ⟨enclosing, id, idNode⟩ hmem
      exact (h.own_eq hwell hshaped hmodel hother enclosing
        (Typing.mem_entered_of_leftAlong hmem)).symm
    rw [hevents, Typing.leftAlong_mapNode_of_label (tree.trade_label first second),
      List.flatMap_map, List.flatMap_congr hown]
    exact hleft.flatMap_right _
  rw [Model.diagnostics_of_analyze hwell hmodel,
    Model.diagnostics_of_analyze (h.neighbours.wellLinked hwell) hother, Model.map_snd_complaints,
    Model.map_snd_complaints]
  exact hnames.append htypes

end Tree.Independent

/-- Items that do not speak of each other may stand in either order: every node keeps its type, every
name keeps its meaning, the same declarations have symbols, and the same complaints are made. -/
theorem analyze_exchange {text : String} {tree : Tree} (h : Tree.ofText text = .ok tree)
    (hshaped : tree.FunctionShaped) {first second : NodeId} {node next : Node}
    {decl later : Declaration} (hindependent : tree.Independent first second node next decl later)
    (builtins : Bool) :
    (tree.exchange first second).WellLinked ∧
      (∃ before rest, (tree.chain tree.root).map Prod.fst = before ++ first :: second :: rest ∧
        ((tree.exchange first second).chain (tree.exchange first second).root).map Prod.fst =
          before ++ second :: first :: rest) ∧
      ∃ model other, analyze builtins tree = .ok model ∧
        analyze builtins (tree.exchange first second) = .ok other ∧ model.Rearranged other := by
  have hwell := Tree.wellLinked_of_ofText h
  have hneighbours := hindependent.neighbours
  have hwell' := hneighbours.wellLinked hwell
  have hleaks := Tree.leakCount_eq_zero hwell (hshaped.forest_shaped hwell)
  obtain ⟨model, hmodel⟩ :=
    exists_analyze_of_blocks hwell builtins hleaks fun id hid => hshaped.not_hasOddBody hid
  have hback : (tree.exchange first second).SameInside tree :=
    (hneighbours.sameInside hwell).symm hwell fun id => (hneighbours.reachable_iff hwell).mp
  obtain ⟨other, hother⟩ := hback.exists_analyze hwell' hwell hmodel
  refine ⟨hwell', hneighbours.chain_exchange hwell, model, other, hmodel, hother, ?_⟩
  have hnames := hindependent.names_eq hwell hshaped hmodel hother
  exact ⟨hindependent.typeOf_eq hwell hshaped hmodel hother, fun id => (hnames id).1,
    fun id => (hnames id).2, hindependent.diagnostics_perm hwell hshaped hmodel hother⟩

/-- Two functions with a mistake each and a call of the first one. The parameter of the second one has
the name of the first one. -/
def duetText : String :=
  "[0,[\x7b\"kind\":\"fun\",\"name\":\"f\",\"type\":\"void\",\"children\":[null,1],\"sibling\":3\x7d,"
    ++ "\x7b\"kind\":\"compound\",\"children\":[null,2]\x7d,"
    ++ "\x7b\"kind\":\"id\",\"name\":\"a\",\"line\":1\x7d,"
    ++ "\x7b\"kind\":\"fun\",\"name\":\"g\",\"type\":\"void\",\"children\":[4,5],\"sibling\":7\x7d,"
    ++ "\x7b\"kind\":\"param\",\"name\":\"f\",\"type\":\"integer\"\x7d,"
    ++ "\x7b\"kind\":\"compound\",\"children\":[null,6]\x7d,"
    ++ "\x7b\"kind\":\"id\",\"name\":\"b\",\"line\":2\x7d,"
    ++ "\x7b\"kind\":\"call\",\"name\":\"f\",\"line\":3\x7d]]"

def reversedDuetText : String :=
  "[3,[\x7b\"kind\":\"fun\",\"name\":\"f\",\"type\":\"void\",\"children\":[null,1],\"sibling\":7\x7d,"
    ++ "\x7b\"kind\":\"compound\",\"children\":[null,2]\x7d,"
    ++ "\x7b\"kind\":\"id\",\"name\":\"a\",\"line\":1\x7d,"
    ++ "\x7b\"kind\":\"fun\",\"name\":\"g\",\"type\":\"void\",\"children\":[4,5],\"sibling\":0\x7d,"
    ++ "\x7b\"kind\":\"param\",\"name\":\"f\",\"type\":\"integer\"\x7d,"
    ++ "\x7b\"kind\":\"compound\",\"children\":[null,6]\x7d,"
    ++ "\x7b\"kind\":\"id\",\"name\":\"b\",\"line\":2\x7d,"
    ++ "\x7b\"kind\":\"call\",\"name\":\"f\",\"line\":3\x7d]]"

def duetTree : Tree where
  nodes := #[
    ⟨.declaration ⟨.function, "f", .void, none⟩, 0, ⟨none, some 1, none⟩, some 3⟩,
    ⟨.statement .block, 0, ⟨none, some 2, none⟩, none⟩,
    .leaf (.expression (.identifier "a")) 1,
    ⟨.declaration ⟨.function, "g", .void, none⟩, 0, ⟨some 4, some 5, none⟩, some 7⟩,
    .leaf (.declaration ⟨.parameter, "f", .integer, none⟩) 0,
    ⟨.statement .block, 0, ⟨none, some 6, none⟩, none⟩,
    .leaf (.expression (.identifier "b")) 2,
    .leaf (.expression (.call "f")) 3]
  root := some 0

theorem ofText_duetText : Tree.ofText duetText = .ok duetTree :=
  Tree.ofText_eq_ok
    (ofList_append (ofList_append (ofList_append (ofList_append (ofList_append (ofList_append
      (ofList_append rfl rfl) rfl) rfl) rfl) rfl) rfl) rfl)
    (by decide +kernel)

theorem ofText_reversedDuetText : Tree.ofText reversedDuetText = .ok (duetTree.exchange 0 3) :=
  Tree.ofText_eq_ok
    (ofList_append (ofList_append (ofList_append (ofList_append (ofList_append (ofList_append
      (ofList_append rfl rfl) rfl) rfl) rfl) rfl) rfl) rfl)
    (by decide +kernel)

theorem functionShaped_duetTree : duetTree.FunctionShaped := by
  intro id node _ hnode hfunction
  match id with
  | 1 | 2 | 4 | 5 | 6 | 7 =>
    cases hnode
    cases hfunction
  | 0 =>
    cases hnode
    exact ⟨fun item hitem => absurd hitem List.not_mem_nil, ⟨1, _, rfl, rfl, rfl, rfl⟩, rfl⟩
  | 3 =>
    cases hnode
    refine ⟨fun item hitem => ?_, ⟨5, _, rfl, rfl, rfl, rfl⟩, rfl⟩
    obtain rfl := List.mem_singleton.mp hitem
    exact ⟨rfl, rfl⟩
  | id + 8 => cases hnode

theorem not_usesInside_duetTree {outer : NodeId} {name : String} (hname : name = "f" ∨ name = "g") :
    ¬ duetTree.UsesInside outer name := by
  rintro ⟨id, node, ⟨around, haround, houter⟩, hnode, huses⟩
  have hroot : duetTree.Inside (fun _ => true) [] 0 := .root rfl
  have hsecond : duetTree.Inside (fun _ => true) [] 3 := .sibling hroot rfl rfl
  have hcall : duetTree.Inside (fun _ => true) [] 7 := .sibling hsecond rfl rfl
  match id with
  | 0 | 1 | 2 | 3 | 4 | 5 | 6 =>
    cases hnode
    rcases hname with rfl | rfl <;> exact absurd huses (by decide)
  | 7 =>
    rw [← hcall.unique (Tree.wellLinked_of_ofText ofText_duetText) haround] at houter
    cases houter
  | id + 8 => cases hnode

theorem independent_duetTree : ∃ node next decl later,
    duetTree.Independent 0 3 node next decl later ∧ decl.name = "f" ∧ later.name = "g" :=
  ⟨_, _, _, _, ⟨⟨List.mem_cons_self, rfl, rfl⟩, ⟨rfl, .inl rfl⟩, ⟨rfl, .inl rfl⟩, by decide,
    not_usesInside_duetTree (.inl rfl), not_usesInside_duetTree (.inr rfl)⟩, rfl, rfl⟩

theorem exchanged_duetTree :
    Tree.ofText duetText = .ok duetTree ∧
      Tree.ofText reversedDuetText = .ok (duetTree.exchange 0 3) ∧ duetTree.FunctionShaped ∧
      (∃ node next decl later, duetTree.Independent 0 3 node next decl later ∧
        decl.name = "f" ∧ later.name = "g") ∧
      ∃ model other, analyze true duetTree = .ok model ∧
        analyze true (duetTree.exchange 0 3) = .ok other ∧
        model.diagnostics.toList =
          [⟨1, .undeclaredIdentifier "a"⟩, ⟨2, .undeclaredIdentifier "b"⟩] ∧
        other.diagnostics.toList.Perm model.diagnostics.toList ∧
        (other.symbolAt 7).map Symbol.toDefinition = some ⟨"f", .function, .void, 0, .node 0⟩ ∧
        other.facts.typeOf 7 = some .void := by
  obtain ⟨node, next, decl, later, hindependent, -⟩ := independent_duetTree
  obtain ⟨-, -, model, other, hmodel, hother, hrearranged⟩ :=
    analyze_exchange ofText_duetText functionShaped_duetTree hindependent true
  obtain ⟨found, hfound, hdiagnostics, hdefinition, htype⟩ : ∃ model,
      analyze true duetTree = .ok model ∧
      model.diagnostics.toList =
        [⟨1, .undeclaredIdentifier "a"⟩, ⟨2, .undeclaredIdentifier "b"⟩] ∧
      (model.symbolAt 7).map Symbol.toDefinition = some ⟨"f", .function, .void, 0, .node 0⟩ ∧
      model.facts.typeOf 7 = some .void := ⟨_, rfl, rfl, rfl, rfl⟩
  obtain rfl : found = model := Except.ok.inj (hfound.symm.trans hmodel)
  refine ⟨ofText_duetText, ofText_reversedDuetText, functionShaped_duetTree, independent_duetTree,
    found, other, hmodel, hother, hdiagnostics, hrearranged.diagnostics, ?_, ?_⟩
  · rw [hrearranged.definition, hdefinition]
  · rw [hrearranged.typeOf, htype]

end ScopeCheck
