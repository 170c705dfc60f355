import ScopeCheck.Proofs.Analysis.ExpressionTypes
import ScopeCheck.Proofs.Analysis.Nesting
import ScopeCheck.Proofs.Analysis.Outcome

namespace ScopeCheck

open Forest (Leads)

namespace NodeFacts

/-- The scope of the innermost of some blocks, or the global scope. -/
def scopeAround (facts : NodeFacts) : List NodeId → Option ScopeId
  | [] => some State.global
  | block :: _ => facts.scopeOf block

end NodeFacts

theorem Typing.SameNames.scopeAround_eq {state last : State} (h : SameNames state last)
    (blocks : List NodeId) : last.facts.scopeAround blocks = state.facts.scopeAround blocks := by
  cases blocks with
  | nil => rfl
  | cons block blocks => exact h.scopeOf_eq block

namespace SymbolTable

/-- A scope has a symbol under a name that a use can see: a builtin, or one whose declaration is
entered before the use. -/
def Shows (table : SymbolTable) (tree : Tree) (use : NodeId) (name : String) (scope : ScopeId)
    (id : SymbolId) : Prop :=
  ∃ symbol, table.get? id = some symbol ∧ symbol.name = name ∧ symbol.scope = scope ∧
    ((∃ params, symbol.origin = .builtin params) ∨
      ∃ decl, symbol.origin = .node decl ∧ tree.EnteredBefore decl use)

end SymbolTable

/-- What the model says about a use of a name that is entered in `scope`: it means the symbol of the
first scope outward that shows one, and the declaration comes before the use and is in nothing that
the use is outside of. -/
structure Model.ResolvesLexically (model : Model) (tree : Tree) (use : NodeId) (name : String)
    (scope : ScopeId) : Prop where
  some_iff : ∀ id, model.facts.resolution use = some id ↔
    ∃ inner found outer, model.scopes.ancestors scope = inner ++ found :: outer ∧
      model.symbols.Shows tree use name found id ∧
        ∀ other ∈ inner, ∀ id, ¬ model.symbols.Shows tree use name other id
  none_iff : model.facts.resolution use = none ↔
    ∀ found ∈ model.scopes.ancestors scope, ∀ id, ¬ model.symbols.Shows tree use name found id
  never : ∀ id symbol decl, model.facts.resolution use = some id →
    model.symbols.get? id = some symbol → symbol.origin = .node decl →
      tree.EnteredBefore decl use ∧
        (∀ outer, tree.Encloses Label.isBlock outer decl → tree.Encloses Label.isBlock outer use) ∧
        ∀ outer, tree.Encloses Label.isFunction outer decl →
          tree.Encloses Label.isFunction outer use

namespace Resolution

variable {tree : Tree} {use : NodeId} {useNode : Node} {before after : List Event}

theorem origin_start (builtins : Bool) {id : SymbolId} {symbol : Symbol}
    (h : (State.start builtins).symbols.get? id = some symbol) :
    ∃ params, symbol.origin = .builtin params := by
  cases builtins with
  | false => cases h
  | true =>
    match id with
    | 0 | 1 =>
      cases h
      exact ⟨_, rfl⟩
    | id + 2 => cases h

/-- What a use can see in the finished table is what was there when the use was entered. -/
theorem shows_iff (hwell : tree.WellLinked) (builtins : Bool)
    (hevents : tree.events = before ++ .enter use useNode :: after) {name : String}
    {scope : ScopeId} {id : SymbolId} :
    (run (.start builtins) tree.events).symbols.Shows tree use name scope id ↔
      (run (.start builtins) before).symbols.Has name scope id := by
  have hlater : Grows (run (.start builtins) before) (run (.start builtins) tree.events)
      (.enter use useNode :: after) := grows_rest hevents
  have hearlier : Grows (.start builtins) (run (.start builtins) before) before := grows_run _
  constructor
  · rintro ⟨symbol, hsymbol, hname, hscope, horigin⟩
    rcases hlater.added id symbol hsymbol with hlt | hborn
    · obtain ⟨older, holder, hdefinition, hscope'⟩ := hlater.symbols.exists_older hsymbol hlt
      exact ⟨older, holder, (congrArg Definition.name hdefinition).symm.trans hname,
        hscope'.symm.trans hscope⟩
    · -- What is declared later does not come before the use.
      obtain ⟨decl, declNode, hdecl, hmem⟩ := hborn.exists_enter
      rcases horigin with ⟨params, hbuiltin⟩ | ⟨other, hother, hbefore⟩
      · rw [hdecl] at hbuiltin
        cases hbuiltin
      · rw [hdecl] at hother
        cases hother
        rcases List.mem_cons.mp hmem with heq | hmem
        · cases heq
          exact absurd hbefore (Tree.EnteredBefore.irrefl hwell)
        · exact absurd hbefore ((Tree.enteredBefore_of_mem_after hevents hmem).asymm hwell)
  · intro hhas
    obtain ⟨symbol, hsymbol, hname, hscope⟩ := hlater.symbols.has hhas
    obtain ⟨_, hthere, -, -⟩ := hhas
    obtain ⟨older, holder, hdefinition, -⟩ :=
      hlater.symbols.exists_older hsymbol (SymbolTable.get?_lt_size hthere)
    refine ⟨symbol, hsymbol, hname, hscope, ?_⟩
    rw [hdefinition]
    rcases hearlier.added id older holder with hlt | hborn
    · obtain ⟨oldest, holdest, hdefinition, -⟩ := hearlier.symbols.exists_older holder hlt
      rw [hdefinition]
      exact .inl (origin_start builtins holdest)
    · obtain ⟨decl, declNode, hdecl, hmem⟩ := hborn.exists_enter
      exact .inr ⟨decl, hdecl, Tree.enteredBefore_of_mem hevents hmem⟩

theorem resolution_use (hwell : tree.WellLinked) (builtins : Bool)
    (hevents : tree.events = before ++ .enter use useNode :: after) {expr : Expression}
    {name : String} (hexpr : useNode.label = .expression expr) (hname : expr.name? = some name) :
    (run (.start builtins) tree.events).facts.resolution use =
      (run (.start builtins) before).lookup name := by
  have hbefore : (run (.start builtins) before).facts.resolution use = none := by
    rw [resolution_run_of_not_mem fun node => (Tree.not_mem_enter hwell hevents node).1,
      State.start_facts]
    rfl
  rw [hevents, run_append, run_cons,
    resolution_run_of_not_mem fun node => (Tree.not_mem_enter hwell hevents node).2,
    resolution_enter_use hexpr hname hbefore]

theorem exists_scopeAround (hwell : tree.WellLinked) (hshaped : tree.forest.Shaped)
    (builtins : Bool) {blocks : List NodeId} {f s t r : Forest} {expr : Expression}
    (hexpr : useNode.label = .expression expr)
    (hleads : Leads Label.isBlock [] tree.forest before blocks (.cons use useNode f s t r)) :
    ∃ scope, (run (.start builtins) tree.events).facts.scopeAround blocks = some scope ∧
      (run (.start builtins) before).top = some scope := by
  cases blocks with
  | nil =>
    have hstart : Fresh (.start builtins) [State.global] :=
      ⟨State.start_blockEntry builtins, State.start_active builtins⟩
    have hfresh := hstart.run_leads (List.cons_ne_nil _ _) hshaped hexpr hleads rfl
    refine ⟨State.global, rfl, ?_⟩
    rw [State.top_eq_head?, hfresh.scopes]
    rfl
  | cons block rest =>
    rcases hleads.split (List.suffix_refl _) with hnil | ⟨earlier, node, first, second, third, others,
      past, kid, later, hblock, hnode, hslot, hkid, rfl⟩
    · cases List.suffix_nil.mp hnil
    obtain ⟨hfunction, hfirst, hsecond, hthird, -⟩ := hblock.shaped hshaped
    obtain ⟨after, hevents⟩ := hblock.exists_events_eq
    rw [Tree.events_forest] at hevents
    have hearlier : earlier <+: tree.events := hevents ▸ List.prefix_append _ _
    obtain ⟨opened, hentered⟩ :=
      exists_fresh_enter_block block hnode (floor_ne_nil builtins hearlier)
    -- No other block is around the use, so the scope of this one is innermost there.
    have hfresh := (hentered.run_slotted (List.cons_ne_nil _ _) hfirst hsecond hslot).run_leads
      (List.cons_ne_nil _ _) (hslot.shaped hfirst hsecond hthird) hexpr hkid rfl
    have hunset : (run (.start builtins) earlier).facts.scopeOf block = none := by
      rw [scopeOf_run_of_not_mem fun other => (Tree.not_mem_enter hwell hevents other).1,
        State.start_facts]
      rfl
    refine ⟨opened, ?_, ?_⟩
    · show (run (.start builtins) tree.events).facts.scopeOf block = some opened
      rw [hevents, run_append, run_cons,
        scopeOf_run_of_not_mem fun other => (Tree.not_mem_enter hwell hevents other).2,
        scopeOf_enter_block block hnode, if_pos ⟨rfl, hunset⟩, ← top_enter_block hnode,
        State.top_eq_head?, hentered.scopes]
      rfl
    · rw [run_append, run_cons, run_append, State.top_eq_head?, hfresh.scopes]
      rfl

theorem encloses_of_active (hwell : tree.WellLinked) (hshaped : tree.forest.Shaped)
    (builtins : Bool) (huse : before ++ [.enter use useNode] <+: tree.events)
    {earlier : List Event} {decl : NodeId} {declNode : Node}
    (hearlier : earlier ++ [.enter decl declNode] <+: before) (hdecl : ¬ declNode.label.isBlock)
    {scope : Nat} (htop : (run (.start builtins) earlier).top = some scope)
    (hactive : scope ∈ (run (.start builtins) before).active.scopes) {p : Label → Bool}
    (hp : ∀ label, p label → label.opening? ≠ none) {outer : NodeId}
    (houter : tree.Encloses p outer decl) : tree.Encloses p outer use := by
  obtain ⟨around, hinside, hmem⟩ := houter
  obtain ⟨earlier', declNode', f, s, t, r, hleads⟩ := hinside.leads hwell.unfolds
  -- The way to the declaration is the one that the walk has taken.
  obtain ⟨rest', hevents'⟩ := hleads.exists_events_eq
  obtain ⟨rest, hevents⟩ := hearlier.trans ((List.prefix_append _ _).trans huse)
  rw [Tree.events_forest] at hevents'
  rw [List.append_assoc, List.singleton_append] at hevents
  obtain ⟨rfl, rfl⟩ := Tree.enter_unique hwell hevents.symm hevents'
  obtain ⟨inmost, beyond, rfl⟩ := List.append_of_mem hmem
  rcases hleads.split ⟨inmost, rfl⟩ with hnil | ⟨start, node, first, second, third, others,
    past, kid, later, hstart, hnode, hslot, hkid, rfl⟩
  · cases List.suffix_nil.mp hnil
  have hentered : start ++ [.enter outer node] <+: before := by
    refine List.IsPrefix.trans ⟨past ++ later ++ [.enter decl declNode], ?_⟩ hearlier
    simp
  rcases Tree.encloses_or_left hwell hstart hnode huse hentered with hencloses | ⟨more, rfl⟩
  · exact hencloses
  · -- The node has been left, and the scope with it.
    have hbefore : start <+: tree.events :=
      (List.prefix_append _ _).trans ((hentered.trans (List.prefix_append _ _)).trans huse)
    obtain ⟨opened, outers, hopens⟩ := exists_opens (hstart.shaped hshaped)
      (floor_ne_nil builtins hbefore) (hp _ hnode)
    rw [run_append] at htop hactive
    exact absurd hactive
      (hopens.not_mem_scopes (sound_run (State.sound_start builtins) start) hslot hkid hdecl htop more)

theorem enclosed_of_has (hwell : tree.WellLinked) (hshaped : tree.forest.Shaped) (builtins : Bool)
    (hevents : tree.events = before ++ .enter use useNode :: after) {id : SymbolId} {symbol : Symbol}
    {decl : NodeId} (hsymbol : (run (.start builtins) before).symbols.get? id = some symbol)
    (horigin : symbol.origin = .node decl)
    (hactive : symbol.scope ∈ (run (.start builtins) before).active.scopes) {p : Label → Bool}
    (hp : ∀ label, p label → label.opening? ≠ none) {outer : NodeId}
    (houter : tree.Encloses p outer decl) : tree.Encloses p outer use := by
  have huse : before ++ [.enter use useNode] <+: tree.events := by
    rw [hevents]
    exact (List.prefix_append_right_inj before).mpr (by simp)
  have hgrows : Grows (.start builtins) (run (.start builtins) before) before := grows_run _
  rcases hgrows.added id symbol hsymbol with hlt | hborn
  · obtain ⟨older, holder, hdefinition, -⟩ := hgrows.symbols.exists_older hsymbol hlt
    obtain ⟨params, hbuiltin⟩ := origin_start builtins holder
    rw [hdefinition, hbuiltin] at horigin
    cases horigin
  · obtain ⟨earlier, decl', declNode, declaration, hearlier, hlabel, hdecl, htop⟩ := hborn
    rw [hdecl] at horigin
    cases horigin
    have hblock : ¬ declNode.label.isBlock := by simp [hlabel, Label.isBlock]
    exact encloses_of_active hwell hshaped builtins huse hearlier hblock htop hactive hp houter

/-- What a use shows in the finished table, when its scope is active, does not come later and is in
nothing that the use is outside of. -/
theorem never_of_shows (hwell : tree.WellLinked) (hshaped : tree.forest.Shaped) (builtins : Bool)
    (hevents : tree.events = before ++ .enter use useNode :: after) {name : String}
    {found : ScopeId} {id : SymbolId} {symbol : Symbol} {decl : NodeId}
    (hshows : (run (.start builtins) tree.events).symbols.Shows tree use name found id)
    (hactive : found ∈ (run (.start builtins) before).active.scopes)
    (hsymbol : (run (.start builtins) tree.events).symbols.get? id = some symbol)
    (horigin : symbol.origin = .node decl) :
    tree.EnteredBefore decl use ∧
      (∀ outer, tree.Encloses Label.isBlock outer decl → tree.Encloses Label.isBlock outer use) ∧
      ∀ outer, tree.Encloses Label.isFunction outer decl →
        tree.Encloses Label.isFunction outer use := by
  have hgrows : Grows (run (.start builtins) before) (run (.start builtins) tree.events)
      (.enter use useNode :: after) := grows_rest hevents
  obtain ⟨older, holder, -, rfl⟩ := (shows_iff hwell builtins hevents).mp hshows
  obtain ⟨older', holder', hdefinition, -⟩ :=
    hgrows.symbols.exists_older hsymbol (SymbolTable.get?_lt_size holder)
  obtain rfl : older' = older := Option.some.inj (holder'.symm.trans holder)
  have horiginOlder : older'.origin = .node decl := by
    rw [← horigin, hdefinition]
  refine ⟨?_, fun outer houter => ?_, fun outer houter => ?_⟩
  · obtain ⟨shown, hshown, -, -, hvisible⟩ := hshows
    obtain rfl : shown = symbol := Option.some.inj (hshown.symm.trans hsymbol)
    rcases hvisible with ⟨params, hbuiltin⟩ | ⟨other, hother, hbefore⟩
    · rw [horigin] at hbuiltin
      cases hbuiltin
    · rw [horigin] at hother
      cases hother
      exact hbefore
  · refine enclosed_of_has hwell hshaped builtins hevents holder horiginOlder hactive ?_ houter
    intro label hblock
    simp [Label.opening?_eq_block.mpr hblock]
  · refine enclosed_of_has hwell hshaped builtins hevents holder horiginOlder hactive ?_ houter
    intro label hfunction
    simp [Label.opening?_eq_function.mpr hfunction]

/-- The second pass changes nothing of what the first one finds, so the law may be read off the
tables of the model. -/
theorem exists_resolvesLexically (hwell : tree.WellLinked) (hshaped : tree.forest.Shaped)
    (builtins : Bool) {last : State}
    (hsame : Typing.SameNames (run (.start builtins) tree.events) last) {expr : Expression}
    {name : String} (hnode : tree.node? use = some useNode)
    (hexpr : useNode.label = .expression expr) (hname : expr.name? = some name)
    {blocks : List NodeId} (hblocks : tree.Inside Label.isBlock blocks use) :
    ∃ scope, last.toModel.facts.scopeAround blocks = some scope ∧
      last.toModel.ResolvesLexically tree use name scope := by
  obtain ⟨before, after, f, s, t, r, hleads, hevents⟩ := hblocks.exists_walk hwell hnode
  obtain ⟨scope, hscope, htop⟩ := exists_scopeAround hwell hshaped builtins hexpr hleads
  have hsound : (run (.start builtins) before).Sound := sound_run (State.sound_start builtins) _
  have hgrows : Grows (run (.start builtins) before) (run (.start builtins) tree.events)
      (.enter use useNode :: after) := grows_rest hevents
  have hpath : last.scopes.ancestors scope = (run (.start builtins) before).active.scopes := by
    rw [hsame.scopes]
    exact hgrows.ancestors_top hsound (sound_run (State.sound_start builtins) _) htop
  have hshows : ∀ {scope id}, last.symbols.Shows tree use name scope id ↔
      (run (.start builtins) before).symbols.Has name scope id := by
    rw [hsame.symbols]
    exact shows_iff hwell builtins hevents
  have hresolution : last.facts.resolution use = (run (.start builtins) before).lookup name := by
    rw [← resolution_use hwell builtins hevents hexpr hname]
    exact hsame.resolution_eq use
  refine ⟨scope, ?_, ⟨fun id => ?_, ?_, ?_⟩⟩
  · rw [← hscope]
    exact hsame.scopeAround_eq blocks
  · simp only [State.toModel, hresolution, hpath, hshows]
    exact hsound.lookup_eq_some_iff
  · simp only [State.toModel, hresolution, hpath, hshows]
    exact hsound.lookup_eq_none_iff
  · intro id symbol decl hid hsymbol horigin
    obtain ⟨inner, found, outer, hscopes, hhas, -⟩ :=
      hsound.lookup_eq_some_iff.mp (hresolution.symm.trans hid)
    have hactive : found ∈ (run (.start builtins) before).active.scopes := by
      rw [hscopes]
      exact List.mem_append_right _ List.mem_cons_self
    exact never_of_shows hwell hshaped builtins hevents ((shows_iff hwell builtins hevents).mpr hhas)
      hactive (hsame.symbols ▸ hsymbol) horigin

end Resolution

/-- In a tree as a parser builds it each use of a name means what the innermost scope around it says
that has the name by then. -/
theorem lexical_resolution {text : String} {tree : Tree} (h : Tree.ofText text = .ok tree)
    (hshaped : tree.FunctionShaped) (builtins : Bool) :
    ∃ model, analyze builtins tree = .ok model ∧
      ∀ use node expr name, tree.Reachable use → tree.node? use = some node →
        node.label = .expression expr → expr.name? = some name →
          (∃ blocks, tree.Inside Label.isBlock blocks use) ∧
          ∀ blocks, tree.Inside Label.isBlock blocks use →
            ∃ scope, model.facts.scopeAround blocks = some scope ∧
              model.ResolvesLexically tree use name scope := by
  have hwell := Tree.wellLinked_of_ofText h
  have hforest : tree.forest.Shaped := hshaped.shaped hwell hwell.unfolds fun top htop => .root htop
  have hleaks : tree.leakCount = 0 := by
    rw [Tree.leakCount_eq hwell, hforest.leaking_eq_nil]
    rfl
  obtain ⟨model, hmodel⟩ :=
    exists_analyze_of_blocks hwell builtins hleaks fun id hid => hshaped.not_hasOddBody hid
  refine ⟨model, hmodel, fun use node expr name hid hnode hexpr hname => ?_⟩
  obtain ⟨-, typed, hrun, -, rfl⟩ := analyze_eq_ok_iff.mp hmodel
  refine ⟨(Tree.reachable_iff_exists_inside Label.isBlock).mp hid, fun blocks hblocks => ?_⟩
  exact Resolution.exists_resolvesLexically hwell hforest builtins (Typing.sameNames_run hrun) hnode
    hexpr hname hblocks

/-- A function whose parameter is named like a variable around it. -/
def shadowText : String :=
  "[0,[\x7b\"kind\":\"var\",\"name\":\"x\",\"type\":\"integer\",\"sibling\":1\x7d,"
    ++ "\x7b\"kind\":\"fun\",\"name\":\"f\",\"type\":\"void\",\"children\":[2,3]\x7d,"
    ++ "\x7b\"kind\":\"param\",\"name\":\"x\",\"type\":\"integer\"\x7d,"
    ++ "\x7b\"kind\":\"compound\",\"children\":[4]\x7d,"
    ++ "\x7b\"kind\":\"id\",\"name\":\"x\"\x7d]]"

def shadowTree : Tree where
  nodes := #[
    ⟨.declaration ⟨.variable, "x", .integer, none⟩, 0, .empty, some 1⟩,
    ⟨.declaration ⟨.function, "f", .void, none⟩, 0, ⟨some 2, some 3, none⟩, none⟩,
    .leaf (.declaration ⟨.parameter, "x", .integer, none⟩) 0,
    ⟨.statement .block, 0, ⟨some 4, none, none⟩, none⟩,
    .leaf (.expression (.identifier "x")) 0]
  root := some 0

theorem ofText_shadowText : Tree.ofText shadowText = .ok shadowTree :=
  Tree.ofText_eq_ok
    (ofList_append (ofList_append (ofList_append (ofList_append rfl rfl) rfl) rfl) rfl)
    (by decide +kernel)

theorem functionShaped_shadowTree : shadowTree.FunctionShaped := by
  intro id node _ hnode hfunction
  match id with
  | 0 | 2 | 3 | 4 =>
    cases hnode
    cases hfunction
  | 1 =>
    cases hnode
    refine ⟨?_, ⟨3, _, rfl, rfl, rfl, rfl⟩, rfl⟩
    intro item hitem
    obtain rfl : item = (2, .leaf (.declaration ⟨.parameter, "x", .integer, none⟩) 0) :=
      List.mem_singleton.mp hitem
    exact ⟨rfl, rfl⟩
  | id + 5 => cases hnode

theorem resolution_shadowTree :
    Tree.ofText shadowText = .ok shadowTree ∧ shadowTree.FunctionShaped ∧
      ∃ model scope, analyze true shadowTree = .ok model ∧
        model.facts.resolution 4 = some 4 ∧ model.facts.scopeOf 3 = some scope ∧
          model.ResolvesLexically shadowTree 4 "x" scope := by
  obtain ⟨model, hmodel, hlexical⟩ :=
    lexical_resolution ofText_shadowText functionShaped_shadowTree true
  have hresolution : model.facts.resolution 4 = some 4 := by
    cases hmodel
    rfl
  have hfunction : shadowTree.Inside Label.isBlock [] 1 := .sibling (.root rfl) rfl rfl
  have hbody : shadowTree.Inside Label.isBlock [] 3 := .child 1 hfunction rfl rfl
  have huse : shadowTree.Inside Label.isBlock [3] 4 := .child 0 hbody rfl rfl
  obtain ⟨-, hscopes⟩ := hlexical 4 _ _ "x"
    ((Tree.reachable_iff_exists_inside Label.isBlock).mpr ⟨_, huse⟩) rfl rfl rfl
  obtain ⟨scope, hscope, hresolves⟩ := hscopes [3] huse
  exact ⟨ofText_shadowText, functionShaped_shadowTree, model, scope, hmodel, hresolution, hscope,
    hresolves⟩

end ScopeCheck
