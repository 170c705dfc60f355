import ScopeCheck.Proofs.Analysis.Slots

namespace ScopeCheck

def Declaration.definition (decl : Declaration) (id : NodeId) (line : UInt32) : Definition :=
  ⟨decl.name, decl.kind, decl.type, line, .node id⟩

abbrev Bindings := String → Option Definition

namespace Bindings

def empty : Bindings := fun _ => none

/-- A name that is shown already keeps its meaning. -/
def declare (bindings : Bindings) (definition : Definition) : Bindings := fun name =>
  (bindings name).or (if name = definition.name then some definition else none)

theorem declare_of_some {bindings : Bindings} {definition found : Definition}
    (h : bindings definition.name = some found) : bindings.declare definition = bindings := by
  funext name
  rw [declare]
  split
  · rename_i heq
    rw [heq, h, Option.some_or]
  · rw [Option.or_none]

theorem declare_of_ne {bindings : Bindings} {definition : Definition} {name : String}
    (h : name ≠ definition.name) : bindings.declare definition name = bindings name := by
  rw [declare, if_neg h, Option.or_none]

theorem declare_comm (bindings : Bindings) {definition other : Definition}
    (h : definition.name ≠ other.name) :
    (bindings.declare definition).declare other = (bindings.declare other).declare definition := by
  funext name
  simp only [declare, Option.or_assoc]
  congr 1
  split
  · rename_i heq
    rw [if_neg (heq ▸ h), Option.or_none, Option.none_or]
  · rw [Option.none_or, Option.or_none]

end Bindings

/-- What the active scopes show, the innermost first, and what the next block does. -/
structure Environment where
  scopes : List Bindings
  blockEntry : BlockEntry

namespace Environment

def find (env : Environment) (name : String) : Option Definition :=
  env.scopes.findSome? fun bindings => bindings name

/-- What the innermost scope itself shows under a name. -/
def findLocal (env : Environment) (name : String) : Option Definition :=
  env.scopes.head?.bind fun bindings => bindings name

def declare (env : Environment) (definition : Definition) : Environment :=
  { env with scopes := env.scopes.modifyHead (Bindings.declare · definition) }

/-- The body of a function takes the scope that is innermost, any other block a new one. -/
def enterBlock (env : Environment) : Environment :=
  match env.blockEntry with
  | .reuse => ⟨env.scopes, .fresh⟩
  | .fresh => ⟨.empty :: env.scopes, .fresh⟩

def enter (env : Environment) (id : NodeId) (node : Node) : Environment :=
  match node.label.declares? with
  | some decl =>
    let declared := env.declare (decl.definition id node.line)
    if decl.kind = .function then ⟨.empty :: declared.scopes, .reuse⟩ else declared
  | none => if node.label.isBlock then env.enterBlock else env

def leave (env : Environment) (node : Node) : Environment :=
  match node.label.opening?, env.blockEntry with
  | some .block, entry => ⟨env.scopes.tail, entry⟩
  | some .function, .reuse => ⟨env.scopes.tail, .fresh⟩
  | _, _ => env

def step (env : Environment) : Event → Environment
  | .enter id node => env.enter id node
  | .leave _ node => env.leave node

def run (env : Environment) (events : List Event) : Environment := events.foldl step env

@[simp]
theorem run_nil (env : Environment) : env.run [] = env := rfl

@[simp]
theorem run_cons (env : Environment) (event : Event) (events : List Event) :
    env.run (event :: events) = (env.step event).run events := rfl

@[simp]
theorem run_append (env : Environment) (events later : List Event) :
    env.run (events ++ later) = (env.run events).run later := by
  simp [run]

/-- What the name of a node meets: what it means where it is used, and what the innermost scope shows
under it already where it is declared. -/
def reading (env : Environment) (node : Node) : Option Definition :=
  match node.label.declares?, node.label.uses? with
  | some decl, _ => env.findLocal decl.name
  | none, some name => env.find name
  | none, none => none

/-- The readings of the nodes that are entered, in order. -/
def readings (env : Environment) : List Event → List (NodeId × Option Definition)
  | [] => []
  | .enter id node :: events => (id, env.reading node) :: (env.enter id node).readings events
  | .leave _ node :: events => (env.leave node).readings events

theorem readings_append (env : Environment) (events later : List Event) :
    env.readings (events ++ later) = env.readings events ++ (env.run events).readings later := by
  induction events generalizing env with
  | nil => rfl
  | cons event events ih =>
    cases event with
    | enter id node => exact congrArg (_ :: ·) (ih _)
    | leave id node => exact ih _

theorem map_readings (env : Environment) (events : List Event) :
    (env.readings events).map Prod.fst = (events.filterMap Event.entered?).map Prod.fst := by
  induction events generalizing env with
  | nil => rfl
  | cons event events ih =>
    cases event with
    | enter id node => exact congrArg (_ :: ·) (ih _)
    | leave id node => exact ih _

theorem exists_of_mem_readings {env : Environment} {events : List Event} {id : NodeId}
    {found : Option Definition} (h : (id, found) ∈ env.readings events) :
    ∃ before node after, events = before ++ .enter id node :: after ∧
      found = (env.run before).reading node := by
  induction events generalizing env with
  | nil => cases h
  | cons event events ih =>
    cases event with
    | enter other node =>
      rcases List.mem_cons.mp h with heq | h
      · cases heq
        exact ⟨[], node, events, rfl, rfl⟩
      · obtain ⟨before, inner, after, rfl, hfound⟩ := ih h
        exact ⟨.enter other node :: before, inner, after, rfl, hfound⟩
    | leave other node =>
      obtain ⟨before, inner, after, rfl, hfound⟩ := ih h
      exact ⟨.leave other node :: before, inner, after, rfl, hfound⟩

end Environment

namespace SymbolTable

def bindings (table : SymbolTable) (scope : ScopeId) : Bindings := fun name =>
  ((table.lookupLocal name scope).bind table.get?).map Symbol.toDefinition

variable {table : SymbolTable} {name : String} {scope : ScopeId}

theorem Indexed.bindings_eq (h : table.Indexed) {id : SymbolId}
    (hid : table.lookupLocal name scope = some id) :
    ∃ symbol, table.get? id = some symbol ∧ table.bindings scope name = some symbol.toDefinition := by
  obtain ⟨symbol, hsymbol, -⟩ := (h name scope id).mp hid
  exact ⟨symbol, hsymbol, by rw [bindings, hid, Option.bind_some, hsymbol, Option.map_some]⟩

theorem bindings_of_none (h : table.lookupLocal name scope = none) :
    table.bindings scope name = none := by
  rw [bindings, h, Option.bind_none, Option.map_none]

theorem bindings_declare (h : table.Indexed) {definition : Definition}
    (hnew : table.lookupLocal definition.name scope = none) (slot : UInt32) (other : ScopeId) :
    (table.declare scope slot definition).bindings other =
      if other = scope then (table.bindings other).declare definition else table.bindings other := by
  have hkept : ∀ name, ((table.lookupLocal name other).bind
      (table.declare scope slot definition).get?).map Symbol.toDefinition =
        table.bindings other name := by
    intro name
    refine congrArg _ (Option.bind_congr fun id hid => ?_)
    obtain ⟨symbol, hsymbol, -⟩ := h.bindings_eq hid
    rw [get?_declare, if_neg (Nat.ne_of_lt (get?_lt_size hsymbol))]
  funext name
  rw [bindings, lookupLocal_declare]
  split
  · rename_i heq
    obtain ⟨rfl, rfl⟩ := heq
    rw [if_pos rfl, Bindings.declare, bindings_of_none hnew, if_pos rfl, Option.none_or,
      Option.bind_some, get?_declare, if_pos rfl]
    rfl
  · rename_i hne
    rw [hkept]
    split
    · rename_i hscope
      rw [Bindings.declare_of_ne fun hname => hne ⟨hscope, hname⟩]
    · rfl

theorem bindings_addReference (id : SymbolId) (line : UInt32) :
    (table.addReference id line).bindings = table.bindings := by
  funext scope name
  show ((table.lookupLocal name scope).bind (table.addReference id line).get?).map _ = _
  rw [bindings, Option.map_bind, Option.map_bind]
  refine Option.bind_congr fun other _ => ?_
  rw [Function.comp_apply, Function.comp_apply, get?_addReference]
  split
  · cases table.get? other <;> rfl
  · rfl

end SymbolTable

namespace State

def environment (state : State) : Environment :=
  ⟨state.active.scopes.map state.symbols.bindings, state.blockEntry⟩

variable {state : State}

theorem environment_report (diagnostic : Diagnostic) :
    (state.report diagnostic).environment = state.environment := rfl

theorem environment_expect (entry : BlockEntry) :
    (state.expect entry).environment = ⟨state.environment.scopes, entry⟩ := rfl

theorem Sound.find_environment (h : state.Sound) (name : String) :
    state.environment.find name =
      ((state.lookup name).bind state.symbols.get?).map Symbol.toDefinition := by
  rw [h.lookup_eq, environment, Environment.find, List.findSome?_map]
  generalize state.active.scopes = scopes
  induction scopes with
  | nil => rfl
  | cons scope scopes ih =>
    rw [List.findSome?_cons, List.findSome?_cons, Function.comp_apply]
    cases hid : state.symbols.lookupLocal name scope with
    | none =>
      rw [SymbolTable.bindings_of_none hid]
      exact ih
    | some id =>
      obtain ⟨symbol, hsymbol, hbindings⟩ := h.indexed.bindings_eq hid
      rw [hbindings, Option.bind_some, hsymbol, Option.map_some]

theorem Sound.findLocal_environment (h : state.Sound) {scope : ScopeId} (htop : state.top = some scope)
    (name : String) :
    state.environment.findLocal name = none ↔ state.symbols.lookupLocal name scope = none := by
  rw [State.top_eq_head?] at htop
  rw [environment, Environment.findLocal, List.head?_map, htop, Option.map_some, Option.bind_some]
  constructor
  · intro hnone
    by_contra hsome
    obtain ⟨id, hid⟩ := Option.ne_none_iff_exists'.mp hsome
    obtain ⟨_, -, hbindings⟩ := h.indexed.bindings_eq hid
    rw [hnone] at hbindings
    cases hbindings
  · exact SymbolTable.bindings_of_none

end State

namespace Resolution

variable {state : State} {id : NodeId} {node : Node}

theorem environment_declareUnique (h : state.Sound) (line : UInt32) (decl : Declaration) :
    (declareUnique state id line decl).environment =
      state.environment.declare (decl.definition id line) := by
  cases htop : state.top with
  | none =>
    have hscopes : state.active.scopes = [] := by
      rwa [State.top_eq_head?, List.head?_eq_none_iff] at htop
    rw [State.environment, declareUnique_scopes_active, hscopes, declareUnique_blockEntry,
      State.environment, hscopes]
    rfl
  | some scope =>
    obtain ⟨rest, hscopes⟩ : ∃ rest, state.active.scopes = scope :: rest := by
      rw [State.top_eq_head?] at htop
      exact List.head?_eq_some_iff.mp htop
    have hlocal := h.lookupLocal_eq htop decl.name
    cases hlookup : state.lookupLocal state.function decl.name with
    | some earlier =>
      obtain ⟨symbol, -, hbindings⟩ := h.indexed.bindings_eq (hlocal.symm.trans hlookup)
      rw [declareUnique_duplicate hlookup, State.environment_report, Environment.declare,
        State.environment, hscopes, List.map_cons, List.modifyHead_cons,
        Bindings.declare_of_some hbindings]
    | none =>
      obtain ⟨slot, -, heq⟩ := @exists_declareUnique_eq _ id line _ _ hlookup htop
      have hnodup := h.nodup_scopes
      rw [hscopes, List.nodup_cons] at hnodup
      have hbindings : ∀ other, (declareUnique state id line decl).symbols.bindings other =
          if other = scope then
            (state.symbols.bindings other).declare (decl.definition id line)
          else state.symbols.bindings other := by
        rw [heq]
        exact SymbolTable.bindings_declare h.indexed (hlocal.symm.trans hlookup) slot
      rw [State.environment, declareUnique_scopes_active, declareUnique_blockEntry, hscopes,
        List.map_cons, hbindings, if_pos rfl, Environment.declare, State.environment, hscopes,
        List.map_cons, List.modifyHead_cons]
      congr 2
      -- A scope is active once, so none of the others is the innermost one.
      refine List.map_congr_left fun other hother => ?_
      rw [hbindings, if_neg]
      rintro rfl
      exact hnodup.1 hother

theorem environment_resolve (line : UInt32) (name : String) :
    (resolve state id line name).environment = state.environment := by
  rw [resolve]
  split
  · rw [State.environment, State.addReference, SymbolTable.bindings_addReference]
    rfl
  · exact State.environment_report _

theorem environment_pop :
    state.pop.environment = ⟨state.environment.scopes.tail, state.blockEntry⟩ := by
  obtain ⟨active, function, hpop⟩ := state.pop_frame
  have hsymbols : state.pop.symbols = state.symbols := by rw [hpop]
  rw [State.environment, hsymbols, State.pop_active, ActiveScopes.scopes_pop, State.pop_blockEntry,
    State.environment, List.map_tail]

theorem environment_openNamed (h : state.Sound) (hslotted : state.Slotted) (name : String)
    (kind : ScopeKind) :
    (({ state with function := name } : State).openScope kind).environment =
      ⟨.empty :: state.environment.scopes, state.blockEntry⟩ := by
  have hempty : state.symbols.bindings state.scopes.size = .empty := by
    funext name
    apply SymbolTable.bindings_of_none
    rw [Option.eq_none_iff_forall_ne_some]
    intro id hid
    obtain ⟨symbol, hsymbol, -, hscope⟩ := (h.indexed name _ id).mp hid
    exact Nat.ne_of_lt (hslotted.owned id symbol hsymbol) hscope
  show Environment.mk (state.symbols.bindings state.scopes.size :: _) _ = _
  rw [hempty]
  rfl

theorem environment_enterBlock (h : state.Sound) (hslotted : state.Slotted) :
    (enterBlock state id).environment = state.environment.enterBlock := by
  have hentry : state.environment.blockEntry = state.blockEntry := rfl
  rw [Environment.enterBlock, hentry]
  cases hstate : state.blockEntry with
  | fresh =>
    obtain ⟨facts, hblock⟩ := enterBlock_fresh id hstate
    rw [hblock]
    exact (environment_openNamed h hslotted state.function .block).trans (by rw [hstate])
  | reuse =>
    obtain ⟨facts, hblock⟩ := enterBlock_reuse id hstate
    rw [hblock]
    rfl

theorem environment_leave (state : State) (node : Node) :
    (leave state node).environment = state.environment.leave node := by
  obtain ⟨label, line, children, sibling⟩ := node
  cases label with
  | expression expr => rfl
  | statement stmt =>
    cases stmt with
    | block => exact environment_pop
    | ifThen | whileDo | ret => rfl
  | declaration decl =>
    obtain ⟨kind, name, type, size⟩ := decl
    cases kind with
    | «variable» | parameter => rfl
    | function =>
      have hentry : state.environment.blockEntry = state.blockEntry := rfl
      simp only [leave, leaveFunction, Environment.leave, Label.opening?, if_pos, hentry]
      cases state.blockEntry with
      | fresh => rfl
      | reuse => exact environment_pop

theorem environment_step (h : state.Sound) (hslotted : state.Slotted) (event : Event) :
    (step state event).environment = state.environment.step event := by
  cases event with
  | enter id node =>
    rw [Environment.step, Environment.enter]
    cases hdeclares : node.label.declares? with
    | some decl =>
      have hsound := @sound_declareUnique _ id h node.line decl
      have hunique := @environment_declareUnique _ id h node.line decl
      by_cases hkind : decl.kind = .function
      · rw [enter_function_declaration state id hdeclares hkind]
        simp only [if_pos hkind, ← hunique]
        rw [State.environment_expect, State.enterFunction,
          environment_openNamed hsound (slotted_declareUnique hslotted h _ _)]
      · rw [enter_plain_declaration state id hdeclares hkind, hunique]
        simp only [if_neg hkind]
    | none =>
      cases huses : node.label.uses? with
      | some name =>
        obtain ⟨expr, hexpr, -⟩ := Label.eq_expression huses
        rw [enter_use state id huses, environment_resolve, if_neg (by simp [hexpr, Label.isBlock])]
      | none =>
        by_cases hblock : node.label.isBlock
        · rw [if_pos hblock]
          simp only [step, enter, Label.eq_block hblock]
          exact environment_enterBlock h hslotted
        · rw [enter_silent state id hdeclares huses hblock, if_neg hblock]
  | leave id node => exact environment_leave state node

theorem environment_run (h : state.Sound) (hslotted : state.Slotted) (events : List Event) :
    (run state events).environment = state.environment.run events := by
  induction events generalizing state with
  | nil => rfl
  | cons event events ih =>
    rw [run_cons, ih (sound_step h event) (slotted_step hslotted h event),
      environment_step h hslotted, Environment.run_cons]

theorem definition_of_reading {tree : Tree} (hwell : tree.WellLinked) (builtins : Bool)
    {before after : List Event} (hevents : tree.events = before ++ .enter id node :: after) :
    (((run (.start builtins) tree.events).facts.resolution id).bind
        (run (.start builtins) tree.events).symbols.get?).map Symbol.toDefinition =
      if node.label.uses? = none then none
      else ((State.start builtins).environment.run before).reading node := by
  cases huses : node.label.uses? with
  | none => rw [resolution_eq_none hwell builtins hevents huses, if_pos rfl]; rfl
  | some name =>
    obtain ⟨expr, hexpr, hname⟩ := Label.eq_expression huses
    have hsound := sound_run (State.sound_start builtins) before
    rw [if_neg (Option.some_ne_none name), Environment.reading, Label.declares?_eq_none huses, huses,
      ← environment_run (State.sound_start builtins) (State.slotted_start builtins),
      resolution_use hwell builtins hevents hexpr hname]
    refine Eq.trans ?_ (hsound.find_environment name).symm
    cases hlookup : (run (.start builtins) before).lookup name with
    | none => rfl
    | some symbol =>
      -- What comes after may add references to the symbol, and leaves its definition as it is.
      obtain ⟨_, _, _, -, ⟨found, hfound, -⟩, -⟩ := hsound.lookup_eq_some_iff.mp hlookup
      obtain ⟨newer, hnewer, hdefinition, -⟩ := (grows_rest hevents).symbols symbol found hfound
      rw [Option.bind_some, Option.bind_some, hnewer, hfound, Option.map_some, Option.map_some,
        hdefinition]

theorem declared_of_reading {tree : Tree} (hwell : tree.WellLinked) (builtins : Bool)
    {before after : List Event} (hevents : tree.events = before ++ .enter id node :: after) :
    (run (.start builtins) tree.events).facts.declared id = none ↔ node.label.declares? = none ∨
      ((State.start builtins).environment.run before).reading node ≠ none := by
  cases hdeclares : node.label.declares? with
  | none => simp [declared_eq_none hwell builtins hevents hdeclares]
  | some decl =>
    have hsound := sound_run (State.sound_start builtins) before
    obtain ⟨scope, htop⟩ := exists_top builtins (hevents ▸ List.prefix_append _ _)
    rw [declared_declaration hwell builtins hevents hdeclares htop, Environment.reading, hdeclares,
      ← environment_run (State.sound_start builtins) (State.slotted_start builtins), ne_eq,
      hsound.findLocal_environment htop]
    split <;> simp_all

end Resolution

section Models

variable {tree : Tree} (hwell : tree.WellLinked) {builtins : Bool} {model : Model}
  (hmodel : analyze builtins tree = .ok model) {id : NodeId} {node : Node}
  (hnode : tree.node? id = some node) {found : Option Definition}
  (hfound : (id, found) ∈ (State.start builtins).environment.readings tree.events)

include hwell hmodel hnode hfound

theorem Model.definition_eq : (model.symbolAt id).map Symbol.toDefinition =
    if node.label.uses? = none then none else found := by
  obtain ⟨before, other, after, hevents, rfl⟩ := Environment.exists_of_mem_readings hfound
  obtain ⟨-, typed, hrun, -, rfl⟩ := analyze_eq_ok_iff.mp hmodel
  have hsame := Typing.sameNames_run hrun
  have hother := (hwell.mem_entered_iff.mp (Tree.mem_entered_of_events hevents)).2
  obtain rfl := Option.some.inj (hnode.symm.trans hother)
  rw [← Resolution.definition_of_reading hwell builtins hevents, ← hsame.resolution_eq id,
    ← hsame.symbols]
  rfl

theorem Model.declared_eq_none_iff : model.facts.declared id = none ↔
    node.label.declares? = none ∨ found ≠ none := by
  obtain ⟨before, other, after, hevents, rfl⟩ := Environment.exists_of_mem_readings hfound
  obtain ⟨-, typed, hrun, -, rfl⟩ := analyze_eq_ok_iff.mp hmodel
  have hother := (hwell.mem_entered_iff.mp (Tree.mem_entered_of_events hevents)).2
  obtain rfl := Option.some.inj (hnode.symm.trans hother)
  rw [← Resolution.declared_of_reading hwell builtins hevents,
    ← (Typing.sameNames_run hrun).declared_eq id]
  rfl

end Models

end ScopeCheck
