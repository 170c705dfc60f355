import Mathlib.Logic.Equiv.Basic
import ScopeCheck.Proofs.Analysis.CounterpartModel

namespace ScopeCheck

namespace ScopeTable

variable {table : ScopeTable} {kind : ScopeKind} {name : String} {parent : Option ScopeId}

/-- Outside of functions all scopes are named like the global one. -/
def NamesOutside (table : ScopeTable) : Prop :=
  ∀ id : Nat, id < table.size → table.inFunction id = false →
    table.name? id = some Scope.globalName

theorem NamesOutside.create (h : table.NamesOutside) (hordered : table.Ordered)
    (hparent : ∀ outer : Nat, parent = some outer → outer < table.size)
    (hname : kind ≠ .function → parent.any table.inFunction = false → name = Scope.globalName) :
    (table.create kind name parent).NamesOutside := by
  intro id hid hinside
  rw [name?_create]
  by_cases heq : id = table.size
  · subst heq
    rw [inFunction_create_self hordered hparent, Bool.or_eq_false_iff, decide_eq_false_iff_not]
      at hinside
    rw [if_pos rfl, hname hinside.1 hinside.2]
  · rw [size_create] at hid
    have hlt : id < table.size := by omega
    rw [inFunction_create hordered hparent hlt] at hinside
    rw [if_neg heq, h id hlt hinside]

end ScopeTable

namespace Resolution

variable {state : State}

theorem namesOutside_step (hsound : state.Sound) {top : ScopeId} (htop : state.top = some top)
    (h : state.scopes.NamesOutside) (event : Event) : (step state event).scopes.NamesOutside := by
  cases event with
  | leave id node => rwa [leave_scopes]
  | enter id node =>
    by_cases hfunction : node.label.isFunction
    · obtain ⟨decl, hdecl, hkind⟩ := Label.exists_declaration hfunction
      rw [(enter_function_creates hdecl hkind).1]
      exact h.create hsound.ordered hsound.lt_size fun hne _ => absurd rfl hne
    by_cases hblock : node.label.isBlock
    · cases hentry : state.blockEntry with
      | reuse => rwa [enter_body_scopes id hblock hentry]
      | fresh =>
        rw [enter_fresh_block_creates id hblock hentry]
        refine h.create hsound.ordered hsound.lt_size fun _ hinside => ?_
        rw [htop, Option.any_some] at hinside
        have hname := h top (hsound.lt_size top htop) hinside
        rw [hsound.current top htop] at hname
        exact Option.some.inj hname
    · rwa [(enter_other_frame state id (Label.opening?_eq_none hfunction hblock)).1]

theorem namesOutside_run {tree : Tree} (builtins : Bool) {before : List Event}
    (hbefore : before <+: tree.events) :
    (run (.start builtins) before).scopes.NamesOutside := by
  induction before using List.reverseRecOn with
  | nil =>
    intro id hid _
    have hsize : (State.start builtins).scopes.size = 1 := by cases builtins <;> rfl
    obtain rfl : id = 0 := by
      rw [run_nil, hsize] at hid
      omega
    cases builtins <;> rfl
  | append_singleton before event ih =>
    have hprefix := (List.prefix_append before [event]).trans hbefore
    obtain ⟨top, htop⟩ := exists_top builtins hprefix
    rw [run_concat]
    exact namesOutside_step (sound_run (State.sound_start builtins) before) htop (ih hprefix) event

end Resolution

def Symbol.rename (f : String → String) (symbol : Symbol) : Symbol :=
  { symbol with name := f symbol.name }

/-- The same model with other names. -/
structure Model.Renamed (r : String → String) (model other : Model) : Prop where
  facts : other.facts = model.facts
  scopes : other.scopes = model.scopes.rename r
  symbols : other.symbols.symbols = model.symbols.symbols.map (Symbol.rename r)
  diagnostics : other.diagnostics = model.diagnostics.map (Diagnostic.rename r)

namespace Change

def everywhere (r : String → String) : Change where
  node _ := r
  function := r
  symbol _ := r
  added := #[]

variable {r : String → String}

theorem onSymbols_everywhere (symbols : Array Symbol) :
    (everywhere r).onSymbols symbols = symbols.map (Symbol.rename r) := by
  apply Array.ext_getElem?
  intro id
  have hget := @getElem?_onSymbols (everywhere r) symbols id
  rw [number_of_added rfl] at hget
  rw [hget, Array.getElem?_map]
  congr 1
  funext symbol
  exact onSymbol_of_added rfl id symbol

theorem shows_everywhere (hr : Function.Injective r) {table : SymbolTable} {name : String}
    {scope : ScopeId} {id : SymbolId} :
    (everywhere r).Shows table (r name) scope id ↔ table.Has name scope id := by
  rw [shows_of_added rfl, SymbolTable.Has]
  exact exists_congr fun symbol => and_congr_right fun _ => and_congr_left fun _ => hr.eq_iff

theorem fits_everywhere (hr : Function.Injective r) (state : State) (id : NodeId) (node : Node) :
    (everywhere r).Fits state id node where
  declares decl scope _ _ := exists_congr fun _ => shows_everywhere hr
  fresh _ _ _ _ _ := rfl
  uses name _ scope found hfound :=
    ⟨found, (number_of_added rfl found).symm, (shows_everywhere hr).mp hfound⟩
  resolves name found _ _ scope hhas := by
    rw [number_of_added rfl]
    exact (shows_everywhere hr).mpr hhas

theorem renamed_of_mirrors {tree : Tree} {model other : Model}
    (hcomplaints : model.diagnostics.toList = (model.complaints tree).map Prod.snd)
    (h : (everywhere r).Mirrors tree model other) : model.Renamed r other where
  facts := by
    have hnumber : (everywhere r).number = fun symbol => symbol := funext (number_of_added rfl)
    rw [h.facts, hnumber, NodeFacts.renumber_id]
  scopes := h.scopes
  symbols := h.symbols.trans (onSymbols_everywhere _)
  diagnostics := by
    apply Array.toList_inj.mp
    rw [h.diagnostics, Array.toList_map, hcomplaints, List.map_map]
    rfl

end Change

/-- The names of a program can be replaced by others, different ones by different ones: what comes
of it is the same with the other names, be it `Global` or empty that a function is called. -/
theorem analyze_rename {text : String} {tree : Tree} (h : Tree.ofText text = .ok tree)
    (builtins : Bool) {r : String → String} (hr : Function.Injective r)
    (hbuiltins : ∀ builtin ∈ Builtin.all, r builtin.name = builtin.name) :
    (∀ error, analyze builtins (tree.rename fun _ => r) = .error error ↔
      analyze builtins tree = .error error) ∧
    ∀ model, analyze builtins tree = .ok model →
      (∃ other, analyze builtins (tree.rename fun _ => r) = .ok other ∧ model.Renamed r other) ∧
      ∀ id scope, model.scopes.get? id = some scope → model.scopes.inFunction id = false →
        scope.name = Scope.globalName := by
  have hwell := Tree.wellLinked_of_ofText h
  have hnames : tree.RenamesFunctions (fun _ => r) r :=
    ⟨fun _ _ _ _ _ _ => rfl, fun _ _ _ _ _ => rfl⟩
  have hstart : (Change.everywhere r).Relates (.start builtins) (.start builtins) := by
    refine Change.relates_start_self rfl fun id symbol hsymbol => ?_
    obtain ⟨builtin, hbuiltin, hdefinition⟩ :=
      Resolution.exists_builtin (SymbolTable.mem_definitions hsymbol)
    show r symbol.name = symbol.name
    rw [← hdefinition]
    exact hbuiltins builtin hbuiltin
  have hrelates := Change.relates_run hstart hnames
    (fun before id node _ => Change.fits_everywhere hr _ id node) (List.prefix_refl tree.events)
  rw [← Change.events_rename] at hrelates
  refine ⟨fun error => Change.analyze_eq_error_iff hwell hnames hrelates, fun model hmodel => ?_⟩
  constructor
  · obtain ⟨other, hother, hmirrors⟩ := Change.exists_mirror hwell hnames hrelates hmodel
    exact ⟨other, hother, Change.renamed_of_mirrors (Model.diagnostics_of_analyze hwell hmodel) hmirrors⟩
  · intro id scope hscope hinside
    obtain ⟨-, typed, hrun, -, rfl⟩ := analyze_eq_ok_iff.mp hmodel
    have hscopes := (Typing.sameNames_run hrun).scopes
    have hname := Resolution.namesOutside_run builtins (List.prefix_refl tree.events) id
    rw [← hscopes] at hname
    have hlt : id < typed.base.scopes.size := by
      refine Nat.lt_of_not_le fun hle => ?_
      rw [State.toModel, ScopeTable.get?_eq_none_iff.mpr hle] at hscope
      cases hscope
    have hglobal := hname hlt hinside
    rw [ScopeTable.name?, show typed.base.scopes.get? id = some scope from hscope] at hglobal
    exact Option.some.inj hglobal

/-- A function with the name of the global scope, and a variable in it like one outside. -/
def homonymText : String :=
  "[0,[\x7b\"kind\":\"var\",\"name\":\"x\",\"type\":\"integer\",\"sibling\":1\x7d,"
    ++ "\x7b\"kind\":\"fun\",\"name\":\"Global\",\"type\":\"void\",\"children\":[null,2]\x7d,"
    ++ "\x7b\"kind\":\"compound\",\"children\":[3,4]\x7d,"
    ++ "\x7b\"kind\":\"var\",\"name\":\"x\",\"type\":\"integer\"\x7d,"
    ++ "\x7b\"kind\":\"return\",\"line\":2,\"children\":[5]\x7d,"
    ++ "\x7b\"kind\":\"const\",\"value\":1\x7d]]"

def homonymTree : Tree where
  nodes := #[
    ⟨.declaration ⟨.variable, "x", .integer, none⟩, 0, .empty, some 1⟩,
    ⟨.declaration ⟨.function, "Global", .void, none⟩, 0, ⟨none, some 2, none⟩, none⟩,
    ⟨.statement .block, 0, ⟨some 3, some 4, none⟩, none⟩,
    .leaf (.declaration ⟨.variable, "x", .integer, none⟩) 0,
    ⟨.statement .ret, 2, ⟨some 5, none, none⟩, none⟩,
    .leaf (.expression (.constant 1)) 0]
  root := some 0

theorem ofText_homonymText : Tree.ofText homonymText = .ok homonymTree :=
  Tree.ofText_eq_ok
    (ofList_append (ofList_append (ofList_append (ofList_append (ofList_append rfl rfl) rfl) rfl)
      rfl) rfl)
    (by decide +kernel)

theorem renamed_homonymTree :
    Tree.ofText homonymText = .ok homonymTree ∧
      Function.Injective (Equiv.swap "Global" "") ∧
      (∀ builtin ∈ Builtin.all, Equiv.swap "Global" "" builtin.name = builtin.name) ∧
      ∃ other, analyze true (homonymTree.rename fun _ => Equiv.swap "Global" "") = .ok other ∧
        other.scopes.name? 0 = some "Global" ∧ other.scopes.name? 1 = some "" ∧
        other.symbols.size = 5 ∧
        other.diagnostics.toList = [⟨2, .returnTypeMismatch "" .void (some .integer)⟩] := by
  obtain ⟨model, hmodel⟩ : ∃ model, analyze true homonymTree = .ok model := ⟨_, rfl⟩
  have hbuiltins : ∀ builtin ∈ Builtin.all,
      Equiv.swap "Global" "" builtin.name = builtin.name := by decide
  have hinjective := (Equiv.swap "Global" "").injective
  obtain ⟨⟨other, hother, hrenamed⟩, -⟩ :=
    (analyze_rename ofText_homonymText true hinjective hbuiltins).2 model hmodel
  refine ⟨ofText_homonymText, hinjective, hbuiltins, other, hother, ?_, ?_, ?_, ?_⟩
  · rw [hrenamed.scopes, ScopeTable.name?_rename]
    cases hmodel
    rfl
  · rw [hrenamed.scopes, ScopeTable.name?_rename]
    cases hmodel
    decide
  · rw [SymbolTable.size, hrenamed.symbols, Array.size_map]
    cases hmodel
    rfl
  · rw [hrenamed.diagnostics, Array.toList_map]
    cases hmodel
    decide

end ScopeCheck
