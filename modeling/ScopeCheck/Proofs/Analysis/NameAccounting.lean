import ScopeCheck.Proofs.Analysis.Lexical
import ScopeCheck.Proofs.Analysis.NameFacts
import ScopeCheck.Proofs.Analysis.Outcome
import ScopeCheck.Proofs.Analysis.Severity
import ScopeCheck.Proofs.Symbol.Slots
import ScopeCheck.Proofs.Tree.Walk

namespace ScopeCheck

namespace SymbolTable

variable {table : SymbolTable} {scope : ScopeId} {slot : UInt32} {definition : Definition}

/-- The definitions of the symbols, in the order they are declared. -/
def definitions (table : SymbolTable) : List Definition :=
  table.symbols.toList.map Symbol.toDefinition

theorem definitions_declare :
    (table.declare scope slot definition).definitions = table.definitions ++ [definition] := by
  simp [definitions, declare]

theorem mem_definitions {id : SymbolId} {symbol : Symbol} (h : table.get? id = some symbol) :
    symbol.toDefinition ∈ table.definitions :=
  List.mem_map_of_mem (Array.mem_toList_iff.mpr (Array.mem_of_getElem? h))

theorem definitions_addReference (id : SymbolId) (line : UInt32) :
    (table.addReference id line).definitions = table.definitions := by
  apply List.ext_getElem?
  intro other
  have hget := @get?_addReference table id line other
  simp only [get?, definitions, List.getElem?_map, Array.getElem?_toList] at hget ⊢
  rw [hget]
  split
  · cases table.symbols[other]? <;> rfl
  · rfl

end SymbolTable

namespace NodeFacts

/-- The complaint about the name of a node: that it is declared twice, or that it is not declared. -/
def nameReports (facts : NodeFacts) (id : NodeId) (node : Node) : List Diagnostic :=
  match node.label.declares?, node.label.uses? with
  | some decl, _ =>
    if facts.declared id = none then [⟨node.line, .duplicateDeclaration decl.name⟩] else []
  | none, some name =>
    if facts.resolution id = none then [⟨node.line, .undeclaredIdentifier name⟩] else []
  | none, none => []

def definition? (facts : NodeFacts) (id : NodeId) (node : Node) : Option Definition :=
  if facts.declared id = none then none
  else node.label.declares?.map fun decl => ⟨decl.name, decl.kind, decl.type, node.line, .node id⟩

end NodeFacts

/-- The nodes that a walk enters, in order. -/
def Tree.entered (tree : Tree) : List (NodeId × Node) := tree.events.filterMap Event.entered?

/-- Every declaration and every use of a name is accounted for once in a model: among its symbols or
their references, or else among its complaints. -/
structure Model.AccountsForNames (model : Model) (builtins : List Builtin) (tree : Tree) : Prop where
  entered_iff : ∀ id node, (id, node) ∈ tree.entered ↔
    tree.Reachable id ∧ tree.node? id = some node
  entered_nodup : (tree.entered.map Prod.fst).Nodup
  resolved : ∀ id symbol, model.facts.resolution id = some symbol → ∃ node name found,
    (id, node) ∈ tree.entered ∧ node.label.uses? = some name ∧
      model.symbols.get? symbol = some found ∧ found.name = name
  declared : ∀ id symbol, model.facts.declared id = some symbol → ∃ node decl found,
    (id, node) ∈ tree.entered ∧ node.label.declares? = some decl ∧
      model.symbols.get? symbol = some found ∧
        found.toDefinition = ⟨decl.name, decl.kind, decl.type, node.line, .node id⟩
  diagnostics : model.diagnostics.toList.filter (·.severity = .symbol) =
    tree.entered.flatMap fun (id, node) => model.facts.nameReports id node
  references : ∀ id symbol, model.symbols.get? id = some symbol → symbol.references.toList =
    (tree.entered.filter fun item => model.facts.resolution item.1 = some id).map
      fun item => item.2.line
  numbers : List.range model.symbols.size =
    List.range builtins.length ++ tree.entered.filterMap fun item => model.facts.declared item.1
  definitions : model.symbols.definitions = builtins.map Builtin.definition ++
    tree.entered.filterMap fun (id, node) => model.facts.definition? id node

/-- What `facts` say about some nodes is what a state has in its tables beyond those of `start`. -/
structure State.Accounts (facts : NodeFacts) (start state : State) (nodes : List (NodeId × Node)) :
    Prop where
  diagnostics : state.diagnostics.toList = start.diagnostics.toList ++
    nodes.flatMap fun (id, node) => facts.nameReports id node
  references : ∀ id symbol, state.symbols.get? id = some symbol → symbol.references.toList =
    (nodes.filter fun item => facts.resolution item.1 = some id).map fun item => item.2.line
  resolved : ∀ item ∈ nodes, ∀ id, facts.resolution item.1 = some id → id < state.symbols.size
  numbers : List.range state.symbols.size =
    List.range start.symbols.size ++ nodes.filterMap fun item => facts.declared item.1
  definitions : state.symbols.definitions =
    start.symbols.definitions ++ nodes.filterMap fun (id, node) => facts.definition? id node

namespace State.Accounts

variable {facts : NodeFacts} {start state later : State} {nodes : List (NodeId × Node)}
  {id : NodeId} {node : Node}

theorem keep (h : Accounts facts start state nodes) (hkeeps : state.KeepsNames later) :
    Accounts facts start later nodes where
  diagnostics := by
    rw [hkeeps.diagnostics]
    exact h.diagnostics
  references := by
    rw [hkeeps.symbols]
    exact h.references
  resolved := by
    rw [hkeeps.symbols]
    exact h.resolved
  numbers := by
    rw [hkeeps.symbols]
    exact h.numbers
  definitions := by
    rw [hkeeps.symbols]
    exact h.definitions

/-- A symbol that a use is resolved to is there by then, and it stays. -/
theorem resolved_concat (h : Accounts facts start state nodes) {size : Nat}
    (hsize : state.symbols.size ≤ size)
    (hnew : ∀ symbol, facts.resolution id = some symbol → symbol < size) :
    ∀ item ∈ nodes ++ [(id, node)], ∀ symbol, facts.resolution item.1 = some symbol →
      symbol < size := by
  intro item hitem symbol hsymbol
  rcases List.mem_append.mp hitem with hitem | hitem
  · exact Nat.lt_of_lt_of_le (h.resolved item hitem symbol hsymbol) hsize
  · obtain rfl := List.mem_singleton.mp hitem
    exact hnew symbol hsymbol

theorem pass (h : Accounts facts start state nodes) (hdeclared : facts.declared id = none)
    (hresolution : facts.resolution id = none) (hsymbols : later.symbols = state.symbols)
    (hreports : later.diagnostics.toList =
      state.diagnostics.toList ++ facts.nameReports id node) :
    Accounts facts start later (nodes ++ [(id, node)]) where
  diagnostics := by simp [hreports, h.diagnostics]
  references other symbol hsymbol := by
    rw [hsymbols] at hsymbol
    simp [hresolution, h.references other symbol hsymbol]
  resolved := by
    rw [hsymbols]
    refine h.resolved_concat (Nat.le_refl _) fun symbol hsymbol => ?_
    rw [hresolution] at hsymbol
    cases hsymbol
  numbers := by simp [hsymbols, h.numbers, hdeclared]
  definitions := by simp [hsymbols, h.definitions, NodeFacts.definition?, hdeclared]

theorem use (h : Accounts facts start state nodes) {symbol : SymbolId}
    (hdeclared : facts.declared id = none) (hdeclares : node.label.declares? = none)
    (hresolution : facts.resolution id = some symbol) (hlt : symbol < state.symbols.size) :
    Accounts facts start (state.addReference id symbol node.line) (nodes ++ [(id, node)]) where
  diagnostics := by
    have hreports : facts.nameReports id node = [] := by
      simp only [NodeFacts.nameReports, hdeclares, hresolution]
      cases node.label.uses? <;> rfl
    simp [addReference, h.diagnostics, hreports]
  references other found hfound := by
    simp only [addReference, SymbolTable.get?_addReference] at hfound
    rw [List.filter_append, List.map_append]
    split at hfound
    · rename_i heq
      subst heq
      obtain ⟨older, holder, rfl⟩ := Option.map_eq_some_iff.mp hfound
      simp [hresolution, h.references symbol older holder]
    · rename_i hne
      simp [hresolution, hne, h.references other found hfound]
  resolved := by
    simp only [addReference, SymbolTable.size_addReference]
    refine h.resolved_concat (Nat.le_refl _) fun other hother => ?_
    rw [hresolution] at hother
    cases hother
    exact hlt
  numbers := by simp [addReference, SymbolTable.size_addReference, h.numbers, hdeclared]
  definitions := by
    simp [addReference, SymbolTable.definitions_addReference, h.definitions, NodeFacts.definition?,
      hdeclared]

theorem declare (h : Accounts facts start state nodes) {decl : Declaration} {scope : ScopeId}
    {slot : UInt32} (hdeclares : node.label.declares? = some decl)
    (hdeclared : facts.declared id = some state.symbols.size)
    (hresolution : facts.resolution id = none)
    (hsymbols : later.symbols = state.symbols.declare scope slot
      ⟨decl.name, decl.kind, decl.type, node.line, .node id⟩)
    (hdiagnostics : later.diagnostics = state.diagnostics) :
    Accounts facts start later (nodes ++ [(id, node)]) where
  diagnostics := by
    simp [hdiagnostics, h.diagnostics, NodeFacts.nameReports, hdeclares, hdeclared]
  references other symbol hsymbol := by
    rw [hsymbols, SymbolTable.get?_declare] at hsymbol
    rw [List.filter_append, List.map_append]
    split at hsymbol
    · -- No use can have been resolved to a symbol that is only declared now.
      rename_i heq
      subst heq
      have hnone : nodes.filter (fun item => facts.resolution item.1 = some state.symbols.size) =
          [] := by
        refine List.filter_eq_nil_iff.mpr fun item hitem hresolved => ?_
        exact Nat.lt_irrefl _ (h.resolved item hitem _ (of_decide_eq_true hresolved))
      cases hsymbol
      simp [hresolution, hnone]
    · simp [hresolution, h.references other symbol hsymbol]
  resolved := by
    rw [hsymbols, SymbolTable.size_declare]
    refine h.resolved_concat (Nat.le_succ _) fun symbol hsymbol => ?_
    rw [hresolution] at hsymbol
    cases hsymbol
  numbers := by
    simp [hsymbols, SymbolTable.size_declare, List.range_succ, h.numbers, hdeclared]
  definitions := by
    simp [hsymbols, SymbolTable.definitions_declare, h.definitions, NodeFacts.definition?,
      hdeclared, hdeclares]

end State.Accounts

namespace Resolution

open State (Accounts)

variable {tree : Tree} {id : NodeId} {node : Node} {before after : List Event}

section Enter

variable (hwell : tree.WellLinked) {builtins : Bool}
  (hevents : tree.events = before ++ .enter id node :: after) {nodes : List (NodeId × Node)}
  (h : Accounts (run (.start builtins) tree.events).facts (.start builtins)
    (run (.start builtins) before) nodes)

include hwell hevents h

theorem accounts_enter_declaration {decl : Declaration}
    (hdeclares : node.label.declares? = some decl) {scope : ScopeId}
    (htop : (run (.start builtins) before).top = some scope) :
    Accounts (run (.start builtins) tree.events).facts (.start builtins)
      (step (run (.start builtins) before) (.enter id node)) (nodes ++ [(id, node)]) := by
  have hsound := sound_run (State.sound_start builtins) before
  have hresolution := resolution_eq_none hwell builtins hevents (Label.uses?_eq_none hdeclares)
  have hdeclared := declared_declaration hwell builtins hevents hdeclares htop
  refine State.Accounts.keep ?_ (keepsNames_enter_declaration hdeclares)
  rw [← hsound.lookupLocal_eq htop] at hdeclared
  cases hlookup : (run (.start builtins) before).lookupLocal
      (run (.start builtins) before).function decl.name with
  | none =>
    obtain ⟨slot, -, heq⟩ := @exists_declareUnique_eq _ id node.line _ _ hlookup htop
    rw [hlookup, if_pos rfl] at hdeclared
    exact h.declare hdeclares hdeclared hresolution (by rw [heq]) (by rw [heq])
  | some earlier =>
    rw [hlookup, if_neg (Option.some_ne_none earlier)] at hdeclared
    rw [declareUnique_duplicate hlookup]
    refine h.pass hdeclared hresolution rfl ?_
    simp [State.report, NodeFacts.nameReports, hdeclares, hdeclared]

theorem accounts_enter_use {name : String} (huses : node.label.uses? = some name) :
    Accounts (run (.start builtins) tree.events).facts (.start builtins)
      (step (run (.start builtins) before) (.enter id node)) (nodes ++ [(id, node)]) := by
  obtain ⟨expr, hexpr, hname⟩ := Label.eq_expression huses
  have hdeclares := Label.declares?_eq_none huses
  have hdeclared := declared_eq_none hwell builtins hevents hdeclares
  have hresolution := resolution_use hwell builtins hevents hexpr hname
  rw [enter_use _ id huses]
  cases hlookup : (run (.start builtins) before).lookup name with
  | none =>
    rw [hlookup] at hresolution
    simp only [resolve, hlookup]
    refine h.pass hdeclared hresolution rfl ?_
    simp [State.report, NodeFacts.nameReports, hdeclares, huses, hresolution]
  | some symbol =>
    have hsound := sound_run (State.sound_start builtins) before
    obtain ⟨_, _, _, -, ⟨found, hfound, -⟩, -⟩ := hsound.lookup_eq_some_iff.mp hlookup
    simp only [resolve, hlookup]
    exact h.use hdeclared hdeclares (hresolution.trans hlookup) (SymbolTable.get?_lt_size hfound)

theorem accounts_enter_silent (hdeclares : node.label.declares? = none)
    (huses : node.label.uses? = none) :
    Accounts (run (.start builtins) tree.events).facts (.start builtins)
      (step (run (.start builtins) before) (.enter id node)) (nodes ++ [(id, node)]) := by
  have hkeeps := @keepsNames_enter_silent (run (.start builtins) before) id node hdeclares huses
  refine h.pass (declared_eq_none hwell builtins hevents hdeclares)
    (resolution_eq_none hwell builtins hevents huses) hkeeps.symbols ?_
  simp [hkeeps.diagnostics, NodeFacts.nameReports, hdeclares, huses]

end Enter

theorem size_symbols_start (builtins : Bool) :
    (State.start builtins).symbols.size = (if builtins then Builtin.all else []).length := by
  cases builtins <;> rfl

theorem definitions_start (builtins : Bool) : (State.start builtins).symbols.definitions =
    (if builtins then Builtin.all else []).map Builtin.definition := by
  cases builtins <;> rfl

theorem exists_builtin {builtins : Bool} {definition : Definition}
    (h : definition ∈ (State.start builtins).symbols.definitions) :
    ∃ builtin ∈ Builtin.all, builtin.definition = definition := by
  rw [definitions_start] at h
  cases builtins with
  | true => exact List.mem_map.mp h
  | false => cases h

theorem references_start (builtins : Bool) {id : SymbolId} {symbol : Symbol}
    (h : (State.start builtins).symbols.get? id = some symbol) : symbol.references = #[] := by
  cases builtins with
  | false => cases h
  | true =>
    match id with
    | 0 | 1 =>
      cases h
      rfl
    | id + 2 => cases h

/-- At any time of a walk the books are those of the nodes that have been entered. The induction is
on how far the walk has come. -/
theorem accounts_run (hwell : tree.WellLinked) (builtins : Bool) (hbefore : before <+: tree.events) :
    Accounts (run (.start builtins) tree.events).facts (.start builtins)
      (run (.start builtins) before) (before.filterMap Event.entered?) := by
  induction before using List.reverseRecOn with
  | nil =>
    refine ⟨by simp, ?_, fun item hitem => absurd hitem List.not_mem_nil, by simp, by simp⟩
    intro id symbol hsymbol
    rw [references_start builtins hsymbol]
    rfl
  | append_singleton before event ih =>
    have hprefix := (List.prefix_append _ _).trans hbefore
    have h := ih hprefix
    rw [run_concat, List.filterMap_append]
    cases event with
    | leave id node =>
      have hkeeps := keepsNames_leave (run (.start builtins) before) id node
      rw [show [Event.leave id node].filterMap Event.entered? = [] from rfl, List.append_nil]
      exact h.keep hkeeps
    | enter id node =>
      obtain ⟨after, hevents⟩ := hbefore
      rw [List.append_assoc, List.singleton_append] at hevents
      obtain ⟨scope, htop⟩ := exists_top builtins hprefix
      show Accounts _ _ _ (before.filterMap Event.entered? ++ [(id, node)])
      cases hdeclares : node.label.declares? with
      | some decl => exact accounts_enter_declaration hwell hevents.symm h hdeclares htop
      | none =>
        cases huses : node.label.uses? with
        | some name => exact accounts_enter_use hwell hevents.symm h huses
        | none => exact accounts_enter_silent hwell hevents.symm h hdeclares huses

end Resolution

theorem NodeFacts.severity_nameReports {facts : NodeFacts} {id : NodeId} {node : Node}
    {diagnostic : Diagnostic} (h : diagnostic ∈ facts.nameReports id node) :
    diagnostic.severity = .symbol := by
  simp only [nameReports] at h
  split at h
  · split at h
    · rw [List.mem_singleton.mp h]
      rfl
    · cases h
  · split at h
    · rw [List.mem_singleton.mp h]
      rfl
    · cases h
  · cases h

namespace Tree

variable {tree : Tree}

theorem entered_eq (tree : Tree) : tree.entered = tree.forest.entered := by
  rw [entered, Forest.entered, events_forest]

theorem mem_entered_of_events {before after : List Event} {id : NodeId} {node : Node}
    (hevents : tree.events = before ++ .enter id node :: after) : (id, node) ∈ tree.entered :=
  List.mem_filterMap.mpr ⟨.enter id node, by simp [hevents], rfl⟩

theorem exists_events_of_mem_entered {id : NodeId} {node : Node} (h : (id, node) ∈ tree.entered) :
    ∃ before after, tree.events = before ++ .enter id node :: after := by
  rw [entered_eq, Forest.mem_entered, events_forest] at h
  exact List.append_of_mem h

theorem WellLinked.mem_entered_iff (hwell : tree.WellLinked) {id : NodeId} {node : Node} :
    (id, node) ∈ tree.entered ↔ tree.Reachable id ∧ tree.node? id = some node := by
  rw [entered_eq, Forest.mem_entered, events_forest]
  exact hwell.enter_mem_iff

end Tree

namespace Resolution

variable {tree : Tree} {id : NodeId}

theorem exists_entered_of_origin {builtins : Bool} {id : SymbolId} {symbol : Symbol}
    (h : (run (.start builtins) tree.events).symbols.get? id = some symbol) {decl : NodeId}
    (horigin : symbol.origin = .node decl) : ∃ node, (decl, node) ∈ tree.entered := by
  have hgrows : Grows (.start builtins) (run (.start builtins) tree.events) tree.events :=
    grows_run tree.events
  rcases hgrows.added id symbol h with hlt | hborn
  · obtain ⟨older, holder, hdefinition, -⟩ := hgrows.symbols.exists_older h hlt
    obtain ⟨params, hbuiltin⟩ := origin_start builtins holder
    rw [hdefinition, hbuiltin] at horigin
    cases horigin
  · obtain ⟨other, node, hother, hmem⟩ := hborn.exists_enter
    rw [hother] at horigin
    cases horigin
    exact ⟨node, List.mem_filterMap.mpr ⟨_, hmem, rfl⟩⟩

theorem exists_walk_of_facts {builtins : Bool}
    (h : (run (.start builtins) tree.events).facts.resolution id ≠ none ∨
      (run (.start builtins) tree.events).facts.declared id ≠ none) :
    ∃ before node after, tree.events = before ++ .enter id node :: after := by
  by_contra hnone
  have hnever : ∀ node, .enter id node ∉ tree.events := by
    intro node hmem
    obtain ⟨before, after, hevents⟩ := List.append_of_mem hmem
    exact hnone ⟨before, node, after, hevents⟩
  rw [resolution_run_of_not_mem hnever, declared_run_of_not_mem hnever, State.start_facts] at h
  rcases h with h | h <;> exact h rfl

theorem exists_resolved (hwell : tree.WellLinked) {builtins : Bool} {symbol : SymbolId}
    (h : (run (.start builtins) tree.events).facts.resolution id = some symbol) :
    ∃ node name found, (id, node) ∈ tree.entered ∧ node.label.uses? = some name ∧
      (run (.start builtins) tree.events).symbols.get? symbol = some found ∧ found.name = name := by
  obtain ⟨before, node, after, hevents⟩ :=
    exists_walk_of_facts (.inl (Option.ne_none_iff_exists'.mpr ⟨symbol, h⟩))
  have hmem := Tree.mem_entered_of_events hevents
  cases huses : node.label.uses? with
  | none =>
    rw [resolution_eq_none hwell builtins hevents huses] at h
    cases h
  | some name =>
    obtain ⟨expr, hexpr, hname⟩ := Label.eq_expression huses
    rw [resolution_use hwell builtins hevents hexpr hname] at h
    have hsound := sound_run (State.sound_start builtins) before
    obtain ⟨_, scope, _, -, hhas, -⟩ := hsound.lookup_eq_some_iff.mp h
    obtain ⟨found, hfound, hfoundName, -⟩ := (grows_rest hevents).symbols.has hhas
    exact ⟨node, name, found, hmem, huses, hfound, hfoundName⟩

theorem exists_declared (hwell : tree.WellLinked) {builtins : Bool} {symbol : SymbolId}
    (h : (run (.start builtins) tree.events).facts.declared id = some symbol) :
    ∃ node decl found, (id, node) ∈ tree.entered ∧ node.label.declares? = some decl ∧
      (run (.start builtins) tree.events).symbols.get? symbol = some found ∧
        found.toDefinition = ⟨decl.name, decl.kind, decl.type, node.line, .node id⟩ := by
  obtain ⟨before, node, after, hevents⟩ :=
    exists_walk_of_facts (.inr (Option.ne_none_iff_exists'.mpr ⟨symbol, h⟩))
  have hmem := Tree.mem_entered_of_events hevents
  cases hdeclares : node.label.declares? with
  | none =>
    rw [declared_eq_none hwell builtins hevents hdeclares] at h
    cases h
  | some decl =>
    have hbefore : before <+: tree.events := hevents ▸ List.prefix_append _ _
    obtain ⟨scope, htop⟩ := exists_top builtins hbefore
    obtain ⟨found, hfound, hdefinition, -⟩ :=
      symbol_declaration hwell builtins hevents hdeclares htop h
    exact ⟨node, decl, found, hmem, hdeclares, hfound, hdefinition⟩

end Resolution

/-- Whatever the program, its names are accounted for. -/
theorem accountsForNames {text : String} {tree : Tree} (h : Tree.ofText text = .ok tree)
    {builtins : Bool} {model : Model} (hmodel : analyze builtins tree = .ok model) :
    model.AccountsForNames (if builtins then Builtin.all else []) tree := by
  have hwell := Tree.wellLinked_of_ofText h
  obtain ⟨-, typed, hrun, -, rfl⟩ := analyze_eq_ok_iff.mp hmodel
  have hsame := Typing.sameNames_run hrun
  have haccounts := Resolution.accounts_run hwell builtins (List.prefix_refl tree.events)
  have hresolution : ∀ id, typed.base.toModel.facts.resolution id =
      (Resolution.run (.start builtins) tree.events).facts.resolution id := hsame.resolution_eq
  have hdeclared : ∀ id, typed.base.toModel.facts.declared id =
      (Resolution.run (.start builtins) tree.events).facts.declared id := hsame.declared_eq
  have hsymbols : typed.base.toModel.symbols =
      (Resolution.run (.start builtins) tree.events).symbols := hsame.symbols
  refine ⟨fun id node => hwell.mem_entered_iff, ?_, ?_, ?_, ?_, ?_, ?_, ?_⟩
  · rw [Tree.entered_eq]
    exact hwell.nodup_ids
  · intro id symbol hid
    rw [hresolution] at hid
    rw [hsymbols]
    exact Resolution.exists_resolved hwell hid
  · intro id symbol hid
    rw [hdeclared] at hid
    rw [hsymbols]
    exact Resolution.exists_declared hwell hid
  · have hreports : ∀ id node, typed.base.toModel.facts.nameReports id node =
        (Resolution.run (.start builtins) tree.events).facts.nameReports id node := by
      intro id node
      simp only [NodeFacts.nameReports, hresolution, hdeclared]
    simp only [hreports]
    refine (Typing.symbolErrors_run hwell hrun).trans ?_
    rw [haccounts.diagnostics, State.start_diagnostics, List.nil_append]
    refine List.filter_eq_self.mpr fun diagnostic hmem => ?_
    obtain ⟨⟨id, node⟩, -, hreport⟩ := List.mem_flatMap.mp hmem
    exact decide_eq_true (NodeFacts.severity_nameReports hreport)
  · intro id symbol hsymbol
    simp only [hresolution]
    exact haccounts.references id symbol (hsymbols ▸ hsymbol)
  · simp only [hsymbols, hdeclared, ← Resolution.size_symbols_start]
    exact haccounts.numbers
  · simp only [hsymbols, NodeFacts.definition?, hdeclared, ← Resolution.definitions_start]
    exact haccounts.definitions

/-- A name that is declared twice and used once, beside a name that is used only. -/
def rivalText : String :=
  "[0,[\x7b\"kind\":\"var\",\"name\":\"x\",\"type\":\"integer\",\"line\":1,\"sibling\":1\x7d,"
    ++ "\x7b\"kind\":\"var\",\"name\":\"x\",\"type\":\"array\",\"line\":2,\"sibling\":2\x7d,"
    ++ "\x7b\"kind\":\"id\",\"name\":\"x\",\"line\":3,\"sibling\":3\x7d,"
    ++ "\x7b\"kind\":\"id\",\"name\":\"y\",\"line\":4\x7d]]"

def rivalTree : Tree where
  nodes := #[
    ⟨.declaration ⟨.variable, "x", .integer, none⟩, 1, .empty, some 1⟩,
    ⟨.declaration ⟨.variable, "x", .array, none⟩, 2, .empty, some 2⟩,
    ⟨.expression (.identifier "x"), 3, .empty, some 3⟩,
    .leaf (.expression (.identifier "y")) 4]
  root := some 0

theorem ofText_rivalText : Tree.ofText rivalText = .ok rivalTree :=
  Tree.ofText_eq_ok (ofList_append (ofList_append (ofList_append rfl rfl) rfl) rfl)
    (by decide +kernel)

theorem accounts_rivalTree :
    Tree.ofText rivalText = .ok rivalTree ∧ ∃ model symbol, analyze true rivalTree = .ok model ∧
      model.AccountsForNames Builtin.all rivalTree ∧ model.symbols.get? 2 = some symbol ∧
      symbol.references.toList = [3] ∧ model.diagnostics.toList.filter (·.severity = .symbol) =
        [⟨2, .duplicateDeclaration "x"⟩, ⟨4, .undeclaredIdentifier "y"⟩] := by
  obtain ⟨model, hmodel⟩ : ∃ model, analyze true rivalTree = .ok model := ⟨_, rfl⟩
  have haccounts := accountsForNames ofText_rivalText hmodel
  obtain ⟨symbol, hsymbol⟩ : ∃ symbol, model.symbols.get? 2 = some symbol := by
    cases hmodel
    exact ⟨_, rfl⟩
  have hreferences := haccounts.references 2 symbol hsymbol
  have hdiagnostics := haccounts.diagnostics
  refine ⟨ofText_rivalText, model, symbol, hmodel, haccounts, hsymbol, ?_, ?_⟩
  · rw [hreferences]
    cases hmodel
    rfl
  · rw [hdiagnostics]
    cases hmodel
    rfl

end ScopeCheck
