import ScopeCheck.Proofs.Analysis.CounterpartModel

namespace ScopeCheck

/-- A name that stands nowhere in the tree, nor in the language. -/
structure Tree.Lacks (tree : Tree) (name : String) : Prop where
  nodes : ∀ node ∈ tree.nodes, node.label.name? ≠ some name
  builtins : ∀ builtin ∈ Builtin.all, builtin.name ≠ name

/-- The symbol that stands in the way of a declaration when it is entered: the innermost scope has it
under the same name. -/
def Resolution.obstacle (state : State) : Event → Option SymbolId
  | .enter _ node =>
    node.label.declares?.bind fun decl => state.lookupLocal state.function decl.name
  | .leave .. => none

/-- Some declaration is refused as a duplicate of a symbol. -/
def Tree.HasDuplicateOf (builtins : Bool) (tree : Tree) (symbol : SymbolId) : Prop :=
  ∃ before event, before ++ [event] <+: tree.events ∧
    Resolution.obstacle (Resolution.run (.start builtins) before) event = some symbol

theorem Tree.hasDuplicateOf_iff {builtins : Bool} {tree : Tree} {symbol : SymbolId} :
    tree.HasDuplicateOf builtins symbol ↔ ∃ n < tree.events.length, tree.events[n]?.bind
      (Resolution.obstacle (Resolution.run (.start builtins) (tree.events.take n))) = some symbol := by
  constructor
  · rintro ⟨before, event, ⟨after, hafter⟩, hobstacle⟩
    refine ⟨before.length, by simp [← hafter], ?_⟩
    simpa [← hafter] using hobstacle
  · rintro ⟨n, hn, hobstacle⟩
    obtain ⟨event, hevent, hobstacle⟩ := Option.bind_eq_some_iff.mp hobstacle
    refine ⟨tree.events.take n, event, ?_, hobstacle⟩
    obtain ⟨hlt, rfl⟩ := List.getElem?_eq_some_iff.mp hevent
    rw [← List.take_succ_eq_append_getElem hlt]
    exact List.take_prefix _ _

instance (builtins : Bool) (tree : Tree) (symbol : SymbolId) :
    Decidable (tree.HasDuplicateOf builtins symbol) :=
  decidable_of_iff _ Tree.hasDuplicateOf_iff.symm

def Fault.renameIndex (name : String) : Fault → Fault
  | indexTypeError _ found => indexTypeError name found
  | fault => fault

def Diagnostic.renameIndex (name : String) (diagnostic : Diagnostic) : Diagnostic :=
  { diagnostic with fault := diagnostic.fault.renameIndex name }

namespace Change

/-- A declaration, the uses that mean its symbol, and the symbol get another name. -/
def conversion (resolution : NodeId → Option SymbolId) (decl : NodeId) (symbol : SymbolId)
    (name : String) : Change where
  node id old := if id = decl ∨ resolution id = some symbol then name else old
  function old := old
  symbol id old := if id = symbol then name else old
  added := #[]

end Change

namespace Resolution

variable {tree : Tree} {builtins : Bool}

/-- The symbols of a run are named like builtins or like nodes of the tree. -/
theorem name_ne_of_lacks (hwell : tree.WellLinked) {name : String} (hlacks : tree.Lacks name)
    {before : List Event} (hbefore : before <+: tree.events) {id : SymbolId} {symbol : Symbol}
    (h : (run (.start builtins) before).symbols.get? id = some symbol) : symbol.name ≠ name := by
  have hmem := SymbolTable.mem_definitions h
  rw [(accounts_run hwell builtins hbefore).definitions, List.mem_append] at hmem
  rcases hmem with hbuiltin | hnode
  · obtain ⟨builtin, hbuiltin, hdefinition⟩ := exists_builtin hbuiltin
    rw [← hdefinition]
    exact hlacks.builtins builtin hbuiltin
  · obtain ⟨⟨id, node⟩, hentered, hdefinition⟩ := List.mem_filterMap.mp hnode
    obtain ⟨event, hevent, hnode⟩ := List.mem_filterMap.mp hentered
    have hreached : (id, node) ∈ tree.entered :=
      List.mem_filterMap.mpr ⟨event, hbefore.subset hevent, hnode⟩
    simp only [NodeFacts.definition?] at hdefinition
    split at hdefinition
    · cases hdefinition
    · obtain ⟨decl, hdeclares, heq⟩ := Option.map_eq_some_iff.mp hdefinition
      have hname : symbol.name = decl.name := congrArg Definition.name heq.symm
      have hlabel := hlacks.nodes node
        (Array.mem_of_getElem? (hwell.mem_entered_iff.mp hreached).2)
      rw [Label.name?_of_declares? hdeclares] at hlabel
      rw [hname]
      exact fun h => hlabel (congrArg some h)

theorem declared_inj (hwell : tree.WellLinked) {id other : NodeId} {symbol : SymbolId}
    (h : (run (.start builtins) tree.events).facts.declared id = some symbol)
    (h' : (run (.start builtins) tree.events).facts.declared other = some symbol) : id = other := by
  obtain ⟨_, _, found, -, -, hfound, hdefinition⟩ := exists_declared hwell h
  obtain ⟨_, _, found', -, -, hfound', hdefinition'⟩ := exists_declared hwell h'
  obtain rfl : found = found' := Option.some.inj (hfound.symm.trans hfound')
  have horigin := congrArg Definition.origin (hdefinition.symm.trans hdefinition')
  simpa using horigin

end Resolution

theorem Tree.Lacks.name_ne {tree : Tree} {name : String} (h : tree.Lacks name)
    (hwell : tree.WellLinked) {before after : List Event} {id : NodeId} {node : Node}
    (hevents : tree.events = before ++ .enter id node :: after) {old : String}
    (hold : node.label.name? = some old) : old ≠ name := by
  rintro rfl
  exact h.nodes node
    (Array.mem_of_getElem? (hwell.mem_entered_iff.mp (mem_entered_of_events hevents)).2) hold

namespace Change

open Resolution

variable {tree : Tree} {builtins : Bool} {target : NodeId} {symbol : SymbolId} {name : String}
  {resolution : NodeId → Option SymbolId}

theorem shows_conversion {table : SymbolTable} {old : String} (hold : old ≠ name) {scope : ScopeId}
    {found : SymbolId} :
    (conversion resolution target symbol name).Shows table old scope found ↔
      found ≠ symbol ∧ table.Has old scope found := by
  rw [shows_of_added rfl, SymbolTable.Has]
  by_cases hfound : found = symbol
  · simp [conversion, hfound, Ne.symm hold]
  · simp [conversion, hfound]

theorem shows_conversion_name (hwell : tree.WellLinked) (hlacks : tree.Lacks name)
    {before : List Event} (hbefore : before <+: tree.events) {scope : ScopeId} {found : SymbolId} :
    (conversion resolution target symbol name).Shows (run (.start builtins) before).symbols name
        scope found ↔
      found = symbol ∧ ∃ older, (run (.start builtins) before).symbols.get? symbol = some older ∧
        older.scope = scope := by
  rw [shows_of_added rfl]
  by_cases hfound : found = symbol
  · simp [conversion, hfound]
  · have hne := fun older => @name_ne_of_lacks tree builtins hwell name hlacks before hbefore found older
    simp only [conversion, hfound, false_and, iff_false, if_false]
    rintro ⟨older, holder, hname, -⟩
    exact hne older holder hname

section Fits

variable (hwell : tree.WellLinked) (hlacks : tree.Lacks name) {id : NodeId} {node : Node}
  {before after : List Event} (hevents : tree.events = before ++ .enter id node :: after)

include hwell hlacks hevents

theorem fits_conversion_use (hne : id ≠ target) {old : String}
    (huses : node.label.uses? = some old) :
    (conversion (run (.start builtins) tree.events).facts.resolution target symbol name).Fits
      (run (.start builtins) before) id node := by
  have hbefore : before <+: tree.events := hevents ▸ List.prefix_append _ _
  have hsound := sound_run (State.sound_start builtins) before
  have hdeclares := Label.declares?_eq_none huses
  have hold : old ≠ name := hlacks.name_ne hwell hevents (Label.name?_of_uses? huses)
  have hresolution : (run (.start builtins) tree.events).facts.resolution id =
      (run (.start builtins) before).lookup old := by
    obtain ⟨expr, hexpr, hname⟩ := Label.eq_expression huses
    exact resolution_use hwell builtins hevents hexpr hname
  have hrenamed : (run (.start builtins) before).lookup old = some symbol →
      (conversion (run (.start builtins) tree.events).facts.resolution target symbol name).node id
        old = name := by
    intro hmeans
    simp [conversion, hresolution, hmeans]
  have hkept : (run (.start builtins) before).lookup old ≠ some symbol →
      (conversion (run (.start builtins) tree.events).facts.resolution target symbol name).node id
        old = old := by
    intro hmeans
    simp [conversion, hresolution, hmeans, hne]
  by_cases hmeans : (run (.start builtins) before).lookup old = some symbol
  · obtain ⟨_, _, _, -, ⟨older, holder, hname, -⟩, -⟩ := hsound.lookup_eq_some_iff.mp hmeans
    have hscope : ∀ scope, (run (.start builtins) before).symbols.Has old scope symbol ↔
        older.scope = scope := by
      intro scope
      simp [SymbolTable.Has, holder, hname]
    have hshows : ∀ scope found, (conversion (run (.start builtins) tree.events).facts.resolution
        target symbol name).Shows (run (.start builtins) before).symbols name scope found ↔
          found = symbol ∧ (run (.start builtins) before).symbols.Has old scope symbol := by
      intro scope found
      rw [shows_conversion_name hwell hlacks hbefore, hscope]
      simp [holder]
    apply Fits.of_uses huses
    · intro scope found hfound
      rw [hrenamed hmeans, hshows] at hfound
      exact ⟨found, (number_of_added rfl found).symm, hfound.1 ▸ hfound.2⟩
    · intro found hfound scope hhas
      obtain rfl : symbol = found := Option.some.inj (hmeans.symm.trans hfound)
      rw [hrenamed hmeans, number_of_added rfl, hshows]
      exact ⟨rfl, hhas⟩
  · apply Fits.of_uses huses
    · intro scope found hfound
      rw [hkept hmeans, shows_conversion hold] at hfound
      exact ⟨found, (number_of_added rfl found).symm, hfound.2⟩
    · intro found hfound scope hhas
      rw [hkept hmeans, number_of_added rfl, shows_conversion hold]
      exact ⟨fun heq => hmeans (heq ▸ hfound), hhas⟩

theorem fits_conversion_target {decl : Declaration} (hdeclares : node.label.declares? = some decl)
    (hdeclared : (run (.start builtins) tree.events).facts.declared id = some symbol) :
    (conversion resolution id symbol name).Fits (run (.start builtins) before) id node := by
  have hbefore : before <+: tree.events := hevents ▸ List.prefix_append _ _
  have hsound := sound_run (State.sound_start builtins) before
  have hnode : ∀ old, (conversion resolution id symbol name).node id old = name := by
    intro old
    simp [conversion]
  obtain ⟨scope, htop⟩ := exists_top builtins hbefore
  rw [declared_declaration hwell builtins hevents hdeclares htop] at hdeclared
  split at hdeclared
  · rename_i hlookup
    obtain rfl : (run (.start builtins) before).symbols.size = symbol := Option.some.inj hdeclared
    have hnone : (run (.start builtins) before).symbols.get?
        (run (.start builtins) before).symbols.size = none := by
      simp [SymbolTable.get?, SymbolTable.size]
    apply Fits.of_declares hdeclares
    · intro other hother
      obtain rfl : scope = other := Option.some.inj (htop.symm.trans hother)
      constructor
      · rintro ⟨found, hfound⟩
        rw [hnode, shows_conversion_name hwell hlacks hbefore, hnone] at hfound
        simp at hfound
      · rintro ⟨found, hfound⟩
        rw [(hsound.indexed _ _ _).mpr hfound] at hlookup
        cases hlookup
    · intro _ _ _
      rw [hnode]
      simp [conversion]
  · cases hdeclared

theorem fits_conversion_declaration {decl : Declaration}
    (hdeclares : node.label.declares? = some decl) (hne : id ≠ target)
    (hdeclared : (run (.start builtins) tree.events).facts.declared target = some symbol)
    (hunique : ¬ tree.HasDuplicateOf builtins symbol) :
    (conversion (run (.start builtins) tree.events).facts.resolution target symbol name).Fits
      (run (.start builtins) before) id node := by
  have hbefore : before <+: tree.events := hevents ▸ List.prefix_append _ _
  have hsound := sound_run (State.sound_start builtins) before
  have hresolution := resolution_eq_none hwell builtins hevents (Label.uses?_eq_none hdeclares)
  have hnode : ∀ old, (conversion (run (.start builtins) tree.events).facts.resolution target symbol
      name).node id old = old := by
    intro old
    simp [conversion, hresolution, hne]
  have hold : decl.name ≠ name :=
    hlacks.name_ne hwell hevents (Label.name?_of_declares? hdeclares)
  apply Fits.of_declares hdeclares
  · intro scope htop
    refine exists_congr fun found => ?_
    rw [hnode, shows_conversion hold, and_iff_right_of_imp]
    -- The symbol is not the one that stands in the way of a declaration.
    rintro hhas rfl
    refine hunique ⟨before, .enter id node, ⟨after, by simp [hevents]⟩, ?_⟩
    rw [obstacle, hdeclares, Option.bind_some, hsound.lookupLocal_eq htop]
    exact (hsound.indexed _ _ _).mpr hhas
  · intro scope htop hnone
    have hother : (run (.start builtins) tree.events).facts.declared id =
        some (run (.start builtins) before).symbols.size := by
      rw [declared_declaration hwell builtins hevents hdeclares htop, if_pos]
      rw [Option.eq_none_iff_forall_ne_some]
      exact fun found hfound => hnone found ((hsound.indexed _ _ _).mp hfound)
    have hnew : (run (.start builtins) before).symbols.size ≠ symbol := by
      rintro rfl
      exact hne (declared_inj hwell hother hdeclared)
    rw [hnode]
    simp [conversion, hnew]

end Fits

section Outcome

variable {node : Node} {decl : Declaration} (hwell : tree.WellLinked)
  (hentered : (target, node) ∈ tree.entered) (hlabel : node.label = .declaration decl)
  (hkind : decl.kind ≠ .function)

include hwell hentered hlabel

theorem target_label {id : NodeId} {other : Node} (hother : (id, other) ∈ tree.entered)
    (heq : id = target) : other.label = .declaration decl := by
  subst heq
  have hnode := (hwell.mem_entered_iff.mp hentered).2
  rw [(hwell.mem_entered_iff.mp hother).2] at hnode
  rw [Option.some.inj hnode, hlabel]

theorem fits_conversion (hlacks : tree.Lacks name)
    (hdeclared : (run (.start builtins) tree.events).facts.declared target = some symbol)
    (hunique : ¬ tree.HasDuplicateOf builtins symbol) (before : List Event) (id : NodeId)
    (other : Node) (hbefore : before ++ [.enter id other] <+: tree.events) :
    (conversion (run (.start builtins) tree.events).facts.resolution target symbol name).Fits
      (run (.start builtins) before) id other := by
  obtain ⟨after, hafter⟩ := hbefore
  have hevents : tree.events = before ++ .enter id other :: after := by simp [← hafter]
  cases hdeclares : other.label.declares? with
  | some otherDecl =>
    by_cases heq : id = target
    · subst heq
      exact fits_conversion_target hwell hlacks hevents hdeclares hdeclared
    · exact fits_conversion_declaration hwell hlacks hevents hdeclares heq hdeclared hunique
  | none =>
    cases huses : other.label.uses? with
    | some used =>
      refine fits_conversion_use hwell hlacks hevents (fun heq => ?_) huses
      rw [target_label hwell hentered hlabel (Tree.mem_entered_of_events hevents) heq] at huses
      cases huses
    | none => exact .of_silent hdeclares huses

include hkind

theorem renamesFunctions_conversion :
    tree.RenamesFunctions
      (conversion (run (.start builtins) tree.events).facts.resolution target symbol name).node
      fun old => old := by
  have hkept : ∀ id other, (id, other) ∈ tree.entered → other.label.uses? = none → id ≠ target →
      ∀ old, (conversion (run (.start builtins) tree.events).facts.resolution target symbol
        name).node id old = old := by
    intro id other hother huses hne old
    obtain ⟨before, after, hevents⟩ := Tree.exists_events_of_mem_entered hother
    simp [Change.conversion, hne, resolution_eq_none hwell builtins hevents huses]
  refine ⟨fun id other function hother hfunction hkind' => ?_, fun id other stmt hother hstmt => ?_⟩
  · refine hkept id other hother (by rw [hfunction]; rfl) (fun heq => ?_) _
    have htarget := target_label hwell hentered hlabel hother heq
    rw [hfunction] at htarget
    cases htarget
    exact hkind hkind'
  · funext old
    refine hkept id other hother (by rw [hstmt]; rfl) (fun heq => ?_) _
    have htarget := target_label hwell hentered hlabel hother heq
    rw [hstmt] at htarget
    cases htarget

theorem kind_ne_function {found : Symbol}
    (hdeclared : (run (.start builtins) tree.events).facts.declared target = some symbol)
    (hfound : (run (.start builtins) tree.events).symbols.get? symbol = some found) :
    found.kind ≠ .function := by
  obtain ⟨other, otherDecl, found', hother, hdeclares, hfound', hdefinition⟩ :=
    exists_declared hwell hdeclared
  obtain rfl : found = found' := Option.some.inj (hfound.symm.trans hfound')
  have htarget := target_label hwell hentered hlabel hother rfl
  rw [(Label.eq_declaration hdeclares).1] at htarget
  cases htarget
  rw [hdefinition]
  exact hkind

end Outcome

theorem relates_start_conversion (hwell : tree.WellLinked)
    (hdeclared : (run (.start builtins) tree.events).facts.declared target = some symbol) :
    (conversion resolution target symbol name).Relates (.start builtins)
      (.start builtins) := by
  refine relates_start_self rfl fun id found hfound => if_neg ?_
  rintro rfl
  obtain ⟨_, _, newer, -, -, hnewer, hdefinition⟩ := exists_declared hwell hdeclared
  obtain ⟨newer', hnewer', hsame, -⟩ := (grows_run tree.events).symbols id found hfound
  obtain rfl : newer = newer' := Option.some.inj (hnewer.symm.trans hnewer')
  obtain ⟨builtin, -, hbuiltin⟩ := exists_builtin (SymbolTable.mem_definitions hfound)
  have horigin := congrArg Definition.origin (hbuiltin.trans (hsame.symm.trans hdefinition))
  cases horigin

theorem onSymbols_conversion (symbols : Array Symbol) :
    (conversion resolution target symbol name).onSymbols symbols =
      symbols.modify symbol fun found => { found with name := name } := by
  apply Array.ext_getElem?
  intro id
  have hget := @getElem?_onSymbols (conversion resolution target symbol name) symbols id
  rw [number_of_added rfl] at hget
  rw [hget, Array.getElem?_modify]
  by_cases heq : symbol = id
  · subst heq
    rw [if_pos rfl]
    congr 1
    funext found
    simp [onSymbol_of_added, conversion]
  · rw [if_neg heq]
    have hsame : (conversion resolution target symbol name).onSymbol id = fun found => found := by
      funext found
      simp [onSymbol_of_added, conversion, Ne.symm heq]
    rw [hsame, Option.map_id']

end Change

namespace Model

variable {tree : Tree} {model : Model} {id : NodeId} {node : Node} {enclosing : Option Enclosing}

theorem rename_own {name used : String} (huses : node.label.uses? = some used)
    (hkind : ∀ symbol, model.symbolAt id = some symbol → symbol.kind ≠ .function)
    {diagnostic : Diagnostic} (h : diagnostic ∈ model.own tree enclosing id node) :
    diagnostic.rename (fun _ => name) = diagnostic.renameIndex name := by
  obtain ⟨expr, hexpr, hname⟩ := Label.eq_expression huses
  simp only [own, hexpr] at h
  cases expr with
  | operation op => cases hname
  | constant value => cases hname
  | identifier used => cases h
  | element array =>
    simp only at h
    split at h
    · cases h
    · rcases hindex : model.operand? tree node.children.first with _ | ⟨line, _ | found⟩
      · simp [hindex, Report.element] at h
      · simp [hindex, Report.element] at h
      · simp only [hindex, Report.element, List.mem_ite_nil_left, List.mem_singleton] at h
        rw [h.2]
        rfl
  | call callee =>
    simp only at h
    cases hsymbol : model.symbolAt id with
    | none => simp [hsymbol] at h
    | some symbol => simp [hsymbol, hkind symbol hsymbol] at h

variable {decl : Declaration} (hlabel : node.label = .declaration decl)

include hlabel

theorem own_declaration : model.own tree enclosing id node = [] := by
  simp only [own, hlabel]

theorem not_mem_nameReports (hdeclared : model.facts.declared id ≠ none) {diagnostic : Diagnostic} :
    diagnostic ∉ model.facts.nameReports id node := by
  simp only [NodeFacts.nameReports, hdeclared, if_false, hlabel]
  split
  · exact List.not_mem_nil
  · rename_i huses
    cases huses
  · exact List.not_mem_nil

end Model

namespace Change

open Resolution

variable {tree : Tree} {builtins : Bool} {target : NodeId} {symbol : SymbolId} {name : String}

/-- The complaints about the uses that get the new name say the new name, and no other complaint is
touched. -/
theorem rename_complaint (hwell : tree.WellLinked) {node : Node} {decl : Declaration}
    (hentered : (target, node) ∈ tree.entered) (hlabel : node.label = .declaration decl)
    (hkind : decl.kind ≠ .function)
    (hdeclared : (run (.start builtins) tree.events).facts.declared target = some symbol)
    {model : Model}
    (hmodel : model.facts.declared target =
      (run (.start builtins) tree.events).facts.declared target)
    (hsymbols : model.symbols = (run (.start builtins) tree.events).symbols)
    (hresolution : ∀ id, model.facts.resolution id =
      (run (.start builtins) tree.events).facts.resolution id)
    {id : NodeId} {diagnostic : Diagnostic} (hmem : (id, diagnostic) ∈ model.complaints tree) :
    diagnostic.rename ((conversion (run (.start builtins) tree.events).facts.resolution target symbol
        name).node id) =
      if (run (.start builtins) tree.events).facts.resolution id = some symbol then
        diagnostic.renameIndex name
      else diagnostic := by
  obtain ⟨other, hother, hreport⟩ := Model.mem_complaints hmem
  obtain ⟨before, after, hevents⟩ := Tree.exists_events_of_mem_entered hother
  by_cases hmeans : (run (.start builtins) tree.events).facts.resolution id = some symbol
  · have hnode : (conversion (run (.start builtins) tree.events).facts.resolution target
        symbol name).node id = fun _ => name := by
      funext old
      simp [conversion, hmeans]
    have hmodelMeans : model.facts.resolution id = some symbol := (hresolution id).trans hmeans
    obtain ⟨used, huses⟩ : ∃ used, other.label.uses? = some used := by
      refine Option.ne_none_iff_exists'.mp fun huses => ?_
      rw [resolution_eq_none hwell builtins hevents huses] at hmeans
      cases hmeans
    rw [hnode, if_pos hmeans]
    rcases hreport with hname | ⟨enclosing, htype⟩
    · simp [NodeFacts.nameReports, Label.declares?_eq_none huses, huses, hmodelMeans] at hname
    · refine Model.rename_own huses (fun found hfound => ?_) htype
      rw [Model.symbolAt, hmodelMeans, Option.bind_some, hsymbols] at hfound
      exact kind_ne_function hwell hentered hlabel hkind hdeclared hfound
  · rw [if_neg hmeans]
    by_cases heq : id = target
    · have hother' := target_label hwell hentered hlabel hother heq
      subst heq
      have hsome : model.facts.declared id ≠ none := by
        rw [hmodel, hdeclared]
        exact Option.some_ne_none symbol
      rcases hreport with hname | ⟨enclosing, htype⟩
      · exact absurd hname (Model.not_mem_nameReports hother' hsome)
      · rw [Model.own_declaration hother'] at htype
        cases htype
    · have hnode : (conversion (run (.start builtins) tree.events).facts.resolution target
          symbol name).node id = fun old => old := by
        funext old
        simp [conversion, hmeans, heq]
      rw [hnode, Diagnostic.rename_id]

end Change

open Resolution in
/-- A variable or parameter can have any name that is not in use: the scopes, the facts and the
symbols stay what they are, and only the complaints about its indices say the new name. -/
theorem analyze_convert {text : String} {tree : Tree} (h : Tree.ofText text = .ok tree)
    {builtins : Bool} {model : Model} (hmodel : analyze builtins tree = .ok model)
    {target : NodeId} (hreachable : tree.Reachable target) {node : Node}
    (hnode : tree.node? target = some node) {decl : Declaration}
    (hlabel : node.label = .declaration decl) (hkind : decl.kind ≠ .function) {symbol : SymbolId}
    (hdeclared : model.facts.declared target = some symbol)
    (hunique : ¬ tree.HasDuplicateOf builtins symbol) {name : String} (hlacks : tree.Lacks name) :
    ∃ converted,
      analyze builtins (tree.rename fun id old =>
        if id = target ∨ model.facts.resolution id = some symbol then name else old) =
          .ok converted ∧
      converted.scopes = model.scopes ∧ converted.facts = model.facts ∧
      converted.symbols.symbols = model.symbols.symbols.modify symbol
        (fun found => { found with name := name }) ∧
      model.diagnostics.toList = (model.complaints tree).map Prod.snd ∧
      converted.diagnostics.toList = (model.complaints tree).map fun (id, diagnostic) =>
        if model.facts.resolution id = some symbol then diagnostic.renameIndex name
        else diagnostic := by
  have hwell := Tree.wellLinked_of_ofText h
  have hentered := hwell.mem_entered_iff.mpr ⟨hreachable, hnode⟩
  have hcomplaints := Model.diagnostics_of_analyze hwell hmodel
  obtain ⟨-, typed, hrun, -, rfl⟩ := analyze_eq_ok_iff.mp hmodel
  have hsame := Typing.sameNames_run hrun
  have hresolution : typed.base.toModel.facts.resolution =
      (run (.start builtins) tree.events).facts.resolution := funext hsame.resolution_eq
  have hdeclared' := (hsame.declared_eq target).symm.trans hdeclared
  have hnames := @Change.renamesFunctions_conversion tree builtins target symbol name node decl
    hwell hentered hlabel hkind
  have hrelates := Change.relates_run (Change.relates_start_conversion hwell hdeclared') hnames
    (Change.fits_conversion hwell hentered hlabel hlacks hdeclared' hunique)
    (List.prefix_refl tree.events)
  rw [← Change.events_rename] at hrelates
  obtain ⟨converted, hconverted, hmirrors⟩ := Change.exists_mirror hwell hnames hrelates hmodel
  rw [hresolution]
  refine ⟨converted, hconverted, ?_, ?_, ?_, hcomplaints, ?_⟩
  · exact hmirrors.scopes.trans ScopeTable.rename_id
  · have hnumber : (Change.conversion (run (.start builtins) tree.events).facts.resolution target
        symbol name).number = fun found => found := funext (Change.number_of_added rfl)
    rw [hmirrors.facts, hnumber, NodeFacts.renumber_id]
  · exact hmirrors.symbols.trans (Change.onSymbols_conversion _)
  · rw [hmirrors.diagnostics]
    exact List.map_congr_left fun ⟨id, diagnostic⟩ hmem =>
      Change.rename_complaint hwell hentered hlabel hkind hdeclared' (hsame.declared_eq target)
        hsame.symbols hsame.resolution_eq hmem

/-- A function with an array like a variable outside, which it is an index of itself. -/
def eclipsedText : String :=
  "[0,[\x7b\"kind\":\"var\",\"name\":\"x\",\"type\":\"integer\",\"sibling\":1\x7d,"
    ++ "\x7b\"kind\":\"fun\",\"name\":\"f\",\"type\":\"void\",\"children\":[null,2],\"sibling\":6\x7d,"
    ++ "\x7b\"kind\":\"compound\",\"children\":[3,4]\x7d,"
    ++ "\x7b\"kind\":\"var\",\"name\":\"x\",\"type\":\"array\"\x7d,"
    ++ "\x7b\"kind\":\"array_id\",\"name\":\"x\",\"line\":4,\"children\":[5]\x7d,"
    ++ "\x7b\"kind\":\"id\",\"name\":\"x\",\"line\":4\x7d,"
    ++ "\x7b\"kind\":\"id\",\"name\":\"x\",\"line\":5\x7d]]"

def eclipsedTree : Tree where
  nodes := #[
    ⟨.declaration ⟨.variable, "x", .integer, none⟩, 0, .empty, some 1⟩,
    ⟨.declaration ⟨.function, "f", .void, none⟩, 0, ⟨none, some 2, none⟩, some 6⟩,
    ⟨.statement .block, 0, ⟨some 3, some 4, none⟩, none⟩,
    .leaf (.declaration ⟨.variable, "x", .array, none⟩) 0,
    ⟨.expression (.element "x"), 4, ⟨some 5, none, none⟩, none⟩,
    .leaf (.expression (.identifier "x")) 4,
    .leaf (.expression (.identifier "x")) 5]
  root := some 0

theorem ofText_eclipsedText : Tree.ofText eclipsedText = .ok eclipsedTree :=
  Tree.ofText_eq_ok
    (ofList_append (ofList_append (ofList_append (ofList_append (ofList_append (ofList_append rfl
      rfl) rfl) rfl) rfl) rfl) rfl)
    (by decide +kernel)

theorem lacks_eclipsedTree : eclipsedTree.Lacks "y" :=
  ⟨by decide, by decide⟩

theorem converted_eclipsedTree :
    Tree.ofText eclipsedText = .ok eclipsedTree ∧ eclipsedTree.Lacks "y" ∧
      ¬ eclipsedTree.HasDuplicateOf true 4 ∧
      ∃ model converted, analyze true eclipsedTree = .ok model ∧
        model.facts.declared 3 = some 4 ∧ model.facts.resolution 6 = some 2 ∧
        analyze true (eclipsedTree.rename fun id old =>
          if id = 3 ∨ model.facts.resolution id = some 4 then "y" else old) = .ok converted ∧
        converted.facts.resolution 6 = some 2 ∧
        converted.diagnostics.toList = [⟨4, .indexTypeError "y" .array⟩] := by
  obtain ⟨model, hmodel, hdeclared, hresolution, hcomplaints⟩ : ∃ model,
      analyze true eclipsedTree = .ok model ∧ model.facts.declared 3 = some 4 ∧
        model.facts.resolution 6 = some 2 ∧
        ((model.complaints eclipsedTree).map fun (id, diagnostic) =>
          if model.facts.resolution id = some 4 then diagnostic.renameIndex "y" else diagnostic) =
            [⟨4, .indexTypeError "y" .array⟩] := ⟨_, rfl, rfl, rfl, rfl⟩
  have hunique : ¬ eclipsedTree.HasDuplicateOf true 4 := by decide +kernel
  have hreachable : eclipsedTree.Reachable 3 :=
    .child 0 (.child 1 (.sibling (.root rfl) rfl rfl) rfl rfl) rfl rfl
  obtain ⟨converted, hconverted, -, hfacts, -, -, hdiagnostics⟩ :=
    analyze_convert ofText_eclipsedText hmodel hreachable rfl rfl (by decide) hdeclared hunique
      lacks_eclipsedTree
  refine ⟨ofText_eclipsedText, lacks_eclipsedTree, hunique, model, converted, hmodel, hdeclared,
    hresolution, hconverted, ?_, ?_⟩
  · rw [hfacts, hresolution]
  · rw [hdiagnostics, hcomplaints]

end ScopeCheck
