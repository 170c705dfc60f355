import ScopeCheck.Proofs.Analysis.LaterNodes
import ScopeCheck.Proofs.Analysis.Severity

namespace ScopeCheck

/-- What one model says about the first `size` nodes is what a later one says, whose scopes, symbols
and errors of either kind start with those of the first one. -/
structure Model.IsStartOf (size : Nat) (model later : Model) : Prop where
  types : ∀ id : Nat, id < size → later.facts.typeOf id = model.facts.typeOf id
  blocks : ∀ id : Nat, id < size → later.facts.scopeOf id = model.facts.scopeOf id
  resolution : ∀ id : Nat, id < size → later.facts.resolution id = model.facts.resolution id
  declared : ∀ id : Nat, id < size → later.facts.declared id = model.facts.declared id
  scopes : model.scopes.IsStartOf later.scopes
  symbols : model.symbols.IsStartOf later.symbols
  errors : ∀ severity, model.diagnostics.toList.filter (·.severity = severity) <+:
    later.diagnostics.toList.filter (·.severity = severity)

section Relink

variable {last next : NodeId}

theorem NodeFacts.nameReports_relink (facts : NodeFacts) (id : NodeId) (node : Node) :
    facts.nameReports id (node.relink last next id) = facts.nameReports id node := by
  simp only [nameReports, Node.relink_label, Node.relink_line]

theorem Model.own_relink (model : Model) (tree : Tree) (enclosing : Option Enclosing) (id : NodeId)
    (node : Node) :
    model.own tree enclosing id (node.relink last next id) = model.own tree enclosing id node := by
  simp only [own, Node.relink_label, Node.relink_line, Node.relink_children]

end Relink

/-- Two lists of complaints go on, each on its own, if one is about names and the other about types. -/
theorem filter_severity_isPrefix {names names' types types' : List Diagnostic}
    (hnames : names <+: names') (htypes : types <+: types')
    (hsymbol : ∀ diagnostic ∈ names', diagnostic.severity = .symbol) (htype : OnlyTypes types')
    (severity : Severity) :
    (names ++ types).filter (·.severity = severity) <+:
      (names' ++ types').filter (·.severity = severity) := by
  have hnone : ∀ (reports : List Diagnostic) (other : Severity), other ≠ severity →
      (∀ diagnostic ∈ reports, diagnostic.severity = other) →
        reports.filter (·.severity = severity) = [] := by
    intro reports other hne hother
    refine List.filter_eq_nil_iff.mpr fun diagnostic hmem => ?_
    rw [hother diagnostic hmem]
    simpa using hne
  rw [List.filter_append, List.filter_append]
  cases severity with
  | symbol =>
    rw [hnone types' .type (by decide) htype,
      hnone types .type (by decide) fun diagnostic hmem => htype diagnostic (htypes.subset hmem),
      List.append_nil, List.append_nil]
    exact hnames.filter _
  | type =>
    rw [hnone names' .symbol (by decide) hsymbol,
      hnone names .symbol (by decide) fun diagnostic hmem =>
        hsymbol diagnostic (hnames.subset hmem)]
    exact htypes.filter _

namespace Tree.ContinuedBy

variable {tree later : Tree} {last next : NodeId} (h : tree.ContinuedBy later last next)
  (hwell : tree.WellLinked) (hlater : later.WellLinked) {builtins : Bool}
  {typed typed' : TypingState}
  (hrun : Typing.run tree ⟨Resolution.run (.start builtins) tree.events, none⟩ tree.events =
    .ok typed)
  (hrun' : Typing.run later ⟨Resolution.run (.start builtins) later.events, none⟩ later.events =
    .ok typed')

include h hwell hlater hrun hrun'

theorem model_facts_eq {id : Nat} (hid : id < tree.size) :
    typed'.base.toModel.facts.scopeOf id = typed.base.toModel.facts.scopeOf id ∧
      typed'.base.toModel.facts.resolution id = typed.base.toModel.facts.resolution id ∧
      typed'.base.toModel.facts.declared id = typed.base.toModel.facts.declared id := by
  have hsame := Typing.sameNames_run hrun
  have hsame' := Typing.sameNames_run hrun'
  obtain ⟨hscope, hresolution, hdeclared⟩ := @facts_eq _ _ _ _ h hwell hlater builtins id hid
  exact ⟨(hsame'.scopeOf_eq id).trans (hscope.trans (hsame.scopeOf_eq id).symm),
    (hsame'.resolution_eq id).trans (hresolution.trans (hsame.resolution_eq id).symm),
    (hsame'.declared_eq id).trans (hdeclared.trans (hsame.declared_eq id).symm)⟩

theorem roleAt_eq {id : Nat} (hid : id < tree.size) :
    typed'.base.toModel.roleAt id = typed.base.toModel.roleAt id := by
  have hsame := Typing.sameNames_run hrun
  have hsame' := Typing.sameNames_run hrun'
  rw [Model.roleAt, Model.roleAt, Model.symbolAt, Model.symbolAt,
    (h.model_facts_eq hwell hlater hrun hrun' hid).2.1]
  cases hsymbol : typed.base.toModel.facts.resolution id with
  | none => rfl
  | some symbol =>
    -- The symbol may have more references by now, which are no part of its role.
    obtain ⟨_, _, found, -, -, hfound, -⟩ :=
      Resolution.exists_resolved hwell ((hsame.resolution_eq id).symm.trans hsymbol)
    obtain ⟨lines, hfound'⟩ := h.symbols_isStartOf hwell hlater symbol found hfound
    rw [← hsame.symbols] at hfound
    rw [← hsame'.symbols] at hfound'
    simp only [Option.bind_some, State.toModel, hfound, hfound']
    rfl

theorem ty_eq {id : NodeId} (hid : tree.Reachable id) :
    typed'.base.toModel.ty later id = typed.base.toModel.ty tree id :=
  (h.sameInside hwell hlater).ty_eq hwell hlater hid fun _ hother =>
    h.roleAt_eq hwell hlater hrun hrun' (hother.lt_size hwell)

theorem typeOf_eq {id : Nat} (hid : id < tree.size) :
    typed'.base.toModel.facts.typeOf id = typed.base.toModel.facts.typeOf id := by
  -- A node has a type once it is left, and the new nodes are others.
  have hleft : id ∈ leftIds later.events ↔ id ∈ leftIds tree.events := by
    rw [h.events_eq hwell hlater, leftIds_append, Event.leftIds_mapNode, List.mem_append,
      or_iff_left]
    rw [eventsFrom, ← events_forestUpTo, Forest.mem_leftIds]
    exact fun hmem => Nat.not_le_of_gt hid (h.size_le_of_next hwell hlater hmem)
  show typed'.base.facts.typeOf id = typed.base.facts.typeOf id
  rw [Typing.typeOf_run_ty hlater hrun' (List.prefix_refl _) hrun' id,
    Typing.typeOf_run_ty hwell hrun (List.prefix_refl _) hrun id]
  by_cases hmem : id ∈ leftIds tree.events
  · rw [if_pos hmem, if_pos (hleft.mpr hmem),
      h.ty_eq hwell hlater hrun hrun' ((mem_leftIds_events hwell).mp hmem)]
  · rw [if_neg hmem, if_neg (mt hleft.mp hmem)]

theorem own_eq {id : NodeId} {node : Node} (hentered : (id, node) ∈ tree.entered)
    (enclosing : Option Enclosing) :
    typed'.base.toModel.own later enclosing id (node.relink last next id) =
      typed.base.toModel.own tree enclosing id node := by
  obtain ⟨hid, hnode⟩ := hwell.mem_entered_iff.mp hentered
  rw [Model.own_relink]
  apply (h.sameInside hwell hlater).own_eq hwell hlater hid hnode
  · exact fun other hother => h.typeOf_eq hwell hlater hrun hrun' (hother.lt_size hwell)
  · exact h.roleAt_eq hwell hlater hrun hrun' (hid.lt_size hwell)
  · intro symbol decl hsymbol horigin
    exact Model.reachable_of_origin hwell (Typing.sameNames_run hrun).symbols hsymbol horigin

theorem names_isPrefix :
    (tree.entered.flatMap fun item => typed.base.toModel.facts.nameReports item.1 item.2) <+:
      later.entered.flatMap fun item => typed'.base.toModel.facts.nameReports item.1 item.2 := by
  have hentered : later.entered = (tree.entered.map fun item =>
      (item.1, item.2.relink last next item.1)) ++
        (later.eventsFrom (some next)).filterMap Event.entered? := by
    rw [entered, entered, h.events_eq hwell hlater, List.filterMap_append,
      Event.filterMap_entered?_mapNode]
  have hreports : ∀ item ∈ tree.entered, typed.base.toModel.facts.nameReports item.1 item.2 =
      typed'.base.toModel.facts.nameReports item.1 (item.2.relink last next item.1) := by
    rintro ⟨id, node⟩ hmem
    have hlt := lt_size_of_node? (hwell.mem_entered_iff.mp hmem).2
    obtain ⟨-, hresolution, hdeclared⟩ := h.model_facts_eq hwell hlater hrun hrun' hlt
    rw [NodeFacts.nameReports_relink]
    simp only [NodeFacts.nameReports, hresolution, hdeclared]
  rw [hentered, List.flatMap_append, List.flatMap_map, List.flatMap_congr hreports]
  exact List.prefix_append _ _

theorem types_isPrefix :
    ((Typing.leftAlong none tree.events).flatMap fun item =>
        typed.base.toModel.own tree item.1 item.2.1 item.2.2) <+:
      (Typing.leftAlong none later.events).flatMap fun item =>
        typed'.base.toModel.own later item.1 item.2.1 item.2.2 := by
  have hown : ∀ item ∈ Typing.leftAlong none tree.events,
      typed.base.toModel.own tree item.1 item.2.1 item.2.2 =
        typed'.base.toModel.own later item.1 item.2.1 (item.2.2.relink last next item.2.1) := by
    rintro ⟨enclosing, id, node⟩ hmem
    exact (h.own_eq hwell hlater hrun hrun' (Typing.mem_entered_of_leftAlong hmem) enclosing).symm
  rw [h.events_eq hwell hlater, Typing.leftAlong_append,
    Typing.leftAlong_mapNode_of_label fun _ _ => Node.relink_label, List.flatMap_append,
    List.flatMap_map, List.flatMap_congr hown]
  exact List.prefix_append _ _

/-- No complaint about a name of a new node is mistaken for one about a type of an old one. -/
theorem errors_isPrefix (severity : Severity) :
    typed.base.toModel.diagnostics.toList.filter (·.severity = severity) <+:
      typed'.base.toModel.diagnostics.toList.filter (·.severity = severity) := by
  have hcomplaints := Typing.diagnostics_eq_complaints hwell hrun
  have hcomplaints' := Typing.diagnostics_eq_complaints hlater hrun'
  rw [Model.map_snd_complaints] at hcomplaints hcomplaints'
  show typed.base.diagnostics.toList.filter _ <+: typed'.base.diagnostics.toList.filter _
  rw [hcomplaints, hcomplaints']
  apply filter_severity_isPrefix (h.names_isPrefix hwell hlater hrun hrun')
    (h.types_isPrefix hwell hlater hrun hrun')
  · intro diagnostic hmem
    obtain ⟨item, -, hreport⟩ := List.mem_flatMap.mp hmem
    exact NodeFacts.severity_nameReports hreport
  · intro diagnostic hmem
    obtain ⟨item, -, hreport⟩ := List.mem_flatMap.mp hmem
    exact Model.onlyTypes_own _ _ _ _ _ diagnostic hreport

theorem isStartOf (hleaks : tree.leakCount = 0) :
    typed.base.toModel.IsStartOf tree.size typed'.base.toModel where
  types _ hid := h.typeOf_eq hwell hlater hrun hrun' hid
  blocks _ hid := (h.model_facts_eq hwell hlater hrun hrun' hid).1
  resolution _ hid := (h.model_facts_eq hwell hlater hrun hrun' hid).2.1
  declared _ hid := (h.model_facts_eq hwell hlater hrun hrun' hid).2.2
  scopes := by
    have hscopes : (Resolution.run (.start builtins) tree.events).scopes.IsStartOf
        (Resolution.run (.start builtins) later.events).scopes :=
      h.scopes_isStartOf hwell hlater hleaks
    rwa [← (Typing.sameNames_run hrun).scopes, ← (Typing.sameNames_run hrun').scopes] at hscopes
  symbols := by
    have hsymbols : (Resolution.run (.start builtins) tree.events).symbols.IsStartOf
        (Resolution.run (.start builtins) later.events).symbols :=
      h.symbols_isStartOf hwell hlater
    rwa [← (Typing.sameNames_run hrun).symbols, ← (Typing.sameNames_run hrun').symbols] at hsymbols
  errors := h.errors_isPrefix hwell hlater hrun hrun'

end Tree.ContinuedBy

/-- Where a program goes on after its last item, what was found out about it before still holds: its
nodes, its scopes and its symbols are as they were, and its errors come first. -/
theorem analyze_append {text text' : String} {tree later : Tree} (h : Tree.ofText text = .ok tree)
    (hlater : Tree.ofText text' = .ok later) {last next : NodeId}
    (hcontinued : tree.ContinuedBy later last next) {builtins : Bool} {model : Model}
    (hmodel : analyze builtins later = .ok model) :
    ∃ old, analyze builtins tree = .ok old ∧ old.IsStartOf tree.size model := by
  have hwell := Tree.wellLinked_of_ofText h
  have hwell' := Tree.wellLinked_of_ofText hlater
  obtain ⟨old, hold⟩ := (hcontinued.sameInside hwell hwell').exists_analyze hwell hwell' hmodel
  obtain ⟨hleaks, -⟩ := (exists_analyze_iff hwell builtins).mp ⟨old, hold⟩
  refine ⟨old, hold, ?_⟩
  obtain ⟨-, typed, hrun, -, rfl⟩ := analyze_eq_ok_iff.mp hold
  obtain ⟨-, typed', hrun', -, rfl⟩ := analyze_eq_ok_iff.mp hmodel
  exact hcontinued.isStartOf hwell hwell' hrun hrun' hleaks

/-- A function that returns a value where it may not. -/
def overtureText : String :=
  "[0,[\x7b\"kind\":\"fun\",\"name\":\"f\",\"type\":\"void\",\"children\":[null,1]\x7d,"
    ++ "\x7b\"kind\":\"compound\",\"children\":[null,2]\x7d,"
    ++ "\x7b\"kind\":\"return\",\"line\":1,\"children\":[3]\x7d,"
    ++ "\x7b\"kind\":\"const\",\"value\":1\x7d]]"

def sequelText : String :=
  "[0,[\x7b\"kind\":\"fun\",\"name\":\"f\",\"type\":\"void\",\"children\":[null,1],\"sibling\":4\x7d,"
    ++ "\x7b\"kind\":\"compound\",\"children\":[null,2]\x7d,"
    ++ "\x7b\"kind\":\"return\",\"line\":1,\"children\":[3]\x7d,"
    ++ "\x7b\"kind\":\"const\",\"value\":1\x7d,"
    ++ "\x7b\"kind\":\"call\",\"name\":\"f\",\"line\":2,\"children\":[6],\"sibling\":5\x7d,"
    ++ "\x7b\"kind\":\"compound\"\x7d,"
    ++ "\x7b\"kind\":\"id\",\"name\":\"x\",\"line\":2\x7d]]"

def overtureTree : Tree where
  nodes := #[
    ⟨.declaration ⟨.function, "f", .void, none⟩, 0, ⟨none, some 1, none⟩, none⟩,
    ⟨.statement .block, 0, ⟨none, some 2, none⟩, none⟩,
    ⟨.statement .ret, 1, ⟨some 3, none, none⟩, none⟩,
    .leaf (.expression (.constant 1)) 0]
  root := some 0

def sequelTree : Tree where
  nodes := #[
    ⟨.declaration ⟨.function, "f", .void, none⟩, 0, ⟨none, some 1, none⟩, some 4⟩,
    ⟨.statement .block, 0, ⟨none, some 2, none⟩, none⟩,
    ⟨.statement .ret, 1, ⟨some 3, none, none⟩, none⟩,
    .leaf (.expression (.constant 1)) 0,
    ⟨.expression (.call "f"), 2, ⟨some 6, none, none⟩, some 5⟩,
    .leaf (.statement .block) 0,
    .leaf (.expression (.identifier "x")) 2]
  root := some 0

theorem ofText_overtureText : Tree.ofText overtureText = .ok overtureTree :=
  Tree.ofText_eq_ok (ofList_append (ofList_append (ofList_append rfl rfl) rfl) rfl)
    (by decide +kernel)

theorem ofText_sequelText : Tree.ofText sequelText = .ok sequelTree :=
  Tree.ofText_eq_ok
    (ofList_append (ofList_append (ofList_append (ofList_append (ofList_append (ofList_append rfl
      rfl) rfl) rfl) rfl) rfl) rfl)
    (by decide +kernel)

theorem continuedBy_overtureTree : overtureTree.ContinuedBy sequelTree 0 4 where
  root := rfl
  ends := ⟨_, rfl⟩
  le_next := by decide
  kept id node hnode := by
    obtain ⟨hlt, rfl⟩ := Array.getElem?_eq_some_iff.mp hnode
    have hkept : ∀ (id : Nat) (hlt : id < overtureTree.nodes.size),
        sequelTree.node? id = some (Node.relink 0 4 id overtureTree.nodes[id]) := by decide
    exact hkept id hlt
  added id node hle hnode := by
    obtain ⟨hlt, rfl⟩ := Array.getElem?_eq_some_iff.mp hnode
    have hadded : ∀ (id : Nat) (hlt : id < sequelTree.nodes.size), overtureTree.size ≤ id →
        ∀ target ∈ sequelTree.nodes[id].links, overtureTree.size ≤ target := by decide
    exact hadded id hlt hle

theorem appended_overtureTree :
    Tree.ofText overtureText = .ok overtureTree ∧ Tree.ofText sequelText = .ok sequelTree ∧
      overtureTree.ContinuedBy sequelTree 0 4 ∧
      ∃ model old, analyze true sequelTree = .ok model ∧ analyze true overtureTree = .ok old ∧
        old.facts.scopeOf 1 = some 1 ∧
        old.diagnostics.toList.filter (·.severity = .type) <+:
          [⟨1, .returnTypeMismatch "f" .void (some .integer)⟩, ⟨2, .arityMismatch "f" 0 1⟩] ∧
        ∃ symbol, ∃ lines : Array UInt32, old.symbols.get? 2 = some symbol ∧ symbol.name = "f" ∧
          model.symbols.get? 2 = some { symbol with references := symbol.references ++ lines } := by
  obtain ⟨model, hmodel⟩ : ∃ model, analyze true sequelTree = .ok model := ⟨_, rfl⟩
  obtain ⟨old, hold, hstart⟩ :=
    analyze_append ofText_overtureText ofText_sequelText continuedBy_overtureTree hmodel
  obtain ⟨symbol, hsymbol, hname⟩ : ∃ symbol, old.symbols.get? 2 = some symbol ∧
      symbol.name = "f" := by
    cases hold
    exact ⟨_, rfl, rfl⟩
  obtain ⟨lines, hlines⟩ := hstart.symbols 2 symbol hsymbol
  refine ⟨ofText_overtureText, ofText_sequelText, continuedBy_overtureTree, model, old, hmodel, hold,
    ?_, ?_, symbol, lines, hsymbol, hname, hlines⟩
  · rw [← hstart.blocks 1 (by decide)]
    cases hmodel
    rfl
  · have herrors := hstart.errors .type
    cases hmodel
    exact herrors

end ScopeCheck
