import ScopeCheck.Proofs.Analysis.CounterpartModel
import ScopeCheck.Proofs.Analysis.Slots

namespace ScopeCheck

namespace Builtin

/-- The symbols of the builtins: they have the first slots of the global scope, and nothing refers
to them. -/
def symbols : Array Symbol :=
  (all.mapIdx fun slot builtin =>
    { builtin.definition with
      scope := State.global
      slot := UInt32.ofNat slot
      references := #[] }).toArray

theorem size_symbols : symbols.size = 2 := rfl

theorem exists_of_symbols {id : SymbolId} {symbol : Symbol} (h : symbols[id]? = some symbol) :
    ∃ builtin ∈ all, builtin.name = symbol.name := by
  rw [symbols, List.getElem?_toArray, List.getElem?_mapIdx] at h
  obtain ⟨builtin, hbuiltin, rfl⟩ := Option.map_eq_some_iff.mp h
  exact ⟨builtin, List.mem_of_getElem? hbuiltin, rfl⟩

end Builtin

def Tree.LacksBuiltins (tree : Tree) : Prop :=
  ∀ node ∈ tree.nodes, ∀ builtin ∈ Builtin.all, node.label.name? ≠ some builtin.name

instance (tree : Tree) : Decidable tree.LacksBuiltins :=
  inferInstanceAs (Decidable (∀ node ∈ tree.nodes, ∀ builtin ∈ Builtin.all,
    node.label.name? ≠ some builtin.name))

/-- The symbol where the builtins have the first slots of the global scope. -/
def Symbol.afterBuiltins (symbol : Symbol) : Symbol :=
  { symbol with slot := if symbol.scope = State.global then symbol.slot + 2 else symbol.slot }

/-- The same model with the builtins before all other symbols. -/
structure Model.AfterBuiltins (model other : Model) : Prop where
  scopes : other.scopes = model.scopes
  diagnostics : other.diagnostics = model.diagnostics
  types : other.facts.types = model.facts.types
  blocks : other.facts.scopes = model.facts.scopes
  resolution : ∀ id, other.facts.resolution id = (model.facts.resolution id).map (· + 2)
  declared : ∀ id, other.facts.declared id = (model.facts.declared id).map (· + 2)
  symbols : other.symbols.symbols =
    Builtin.symbols ++ model.symbols.symbols.map Symbol.afterBuiltins
  slots : ∀ id symbol, model.symbols.get? id = some symbol → symbol.scope = State.global →
    symbol.afterBuiltins.slot.toNat = symbol.slot.toNat + 2

namespace Change

/-- The second run has the builtins, under the names that all things have in the first one. -/
def builtins : Change where
  node _ name := name
  function name := name
  symbol _ name := name
  added := Builtin.symbols

theorem number_builtins (id : SymbolId) : builtins.number id = id + 2 :=
  Nat.add_comm 2 id

theorem onSymbol_builtins (id : SymbolId) (symbol : Symbol) :
    builtins.onSymbol id symbol = symbol.afterBuiltins := by
  rw [onSymbol, Symbol.afterBuiltins, firstSlot]
  split
  · rfl
  · rw [UInt32.add_zero]
    rfl

theorem onSymbols_builtins (symbols : Array Symbol) :
    builtins.onSymbols symbols = Builtin.symbols ++ symbols.map Symbol.afterBuiltins := by
  rw [onSymbols]
  congr 1
  apply Array.ext_getElem?
  intro id
  rw [Array.getElem?_mapIdx, Array.getElem?_map]
  congr 1
  funext symbol
  exact onSymbol_builtins id symbol

theorem shows_builtins {name : String} (hname : ∀ builtin ∈ Builtin.all, builtin.name ≠ name)
    {table : SymbolTable} {scope : ScopeId} {id : SymbolId} :
    builtins.Shows table name scope id ↔
      ∃ older, id = builtins.number older ∧ table.Has name scope older := by
  have hnone : ¬ ∃ symbol, builtins.added[id]? = some symbol ∧ symbol.name = name ∧
      symbol.scope = scope := by
    rintro ⟨symbol, hsymbol, hsame, -⟩
    obtain ⟨builtin, hbuiltin, hfound⟩ := Builtin.exists_of_symbols hsymbol
    exact hname builtin hbuiltin (hfound.trans hsame)
  rw [Shows, or_iff_right hnone]
  constructor
  · rintro ⟨older, symbol, hid, hhas⟩
    exact ⟨older, hid, symbol, hhas⟩
  · rintro ⟨older, hid, symbol, hhas⟩
    exact ⟨older, symbol, hid, hhas⟩

theorem fits_builtins {node : Node}
    (hnode : ∀ builtin ∈ Builtin.all, node.label.name? ≠ some builtin.name) (state : State)
    (id : NodeId) : builtins.Fits state id node := by
  have hne : ∀ {name}, node.label.name? = some name →
      ∀ builtin ∈ Builtin.all, builtin.name ≠ name := by
    intro name hname builtin hbuiltin hsame
    apply hnode builtin hbuiltin
    rw [hname, hsame]
  refine ⟨fun decl scope hdeclares _ => ?_, fun _ _ _ _ _ => rfl, fun name huses scope found => ?_,
    fun name found huses _ scope hhas => ?_⟩
  · have hshows := fun found => @shows_builtins decl.name (hne (Label.name?_of_declares? hdeclares))
      state.symbols scope found
    constructor
    · rintro ⟨found, hfound⟩
      obtain ⟨older, -, hhas⟩ := (hshows found).mp hfound
      exact ⟨older, hhas⟩
    · rintro ⟨found, hfound⟩
      exact ⟨builtins.number found, (hshows _).mpr ⟨found, rfl, hfound⟩⟩
  · exact (shows_builtins (hne (Label.name?_of_uses? huses))).mp
  · exact (shows_builtins (hne (Label.name?_of_uses? huses))).mpr ⟨found, rfl, hhas⟩

theorem renamesFunctions_builtins (tree : Tree) :
    tree.RenamesFunctions builtins.node builtins.function :=
  ⟨fun _ _ _ _ _ _ => rfl, fun _ _ _ _ _ => rfl⟩

theorem rename_builtins (tree : Tree) : tree.rename builtins.node = tree := tree.rename_id

theorem relates_run_builtins {tree : Tree} (hwell : tree.WellLinked) (hlacks : tree.LacksBuiltins) :
    builtins.Relates (Resolution.run (.start false) tree.events)
      (Resolution.run (.start true) (tree.rename builtins.node).events) := by
  have hfits : ∀ before id node, before ++ [.enter id node] <+: tree.events →
      builtins.Fits (Resolution.run (.start false) before) id node := by
    intro before id node hbefore
    apply fits_builtins
    apply hlacks
    have hmem : Event.enter id node ∈ tree.events := hbefore.subset (by simp)
    exact Array.mem_of_getElem? (hwell.enter_mem_iff.mp hmem).2
  rw [events_rename]
  exact relates_run (relates_start rfl rfl) (renamesFunctions_builtins tree) hfits
    (List.prefix_refl tree.events)

end Change

namespace Resolution

variable {tree : Tree} (hwell : tree.WellLinked) (hlacks : tree.LacksBuiltins)

include hwell hlacks

theorem size_symbols_le : (run (.start false) tree.events).symbols.size ≤ tree.size := by
  -- The bound on the run with builtins counts them, so it is sharp for the run without.
  have hcount := size_symbols_run_le hwell true
  have hsize := (Change.relates_run_builtins hwell hlacks).size_symbols
  rw [Change.rename_builtins, Change.number_builtins] at hsize
  omega

theorem toNat_afterBuiltins (hsize : tree.size < 2 ^ 32 - 2) {id : SymbolId} {symbol : Symbol}
    (hsymbol : (run (.start false) tree.events).symbols.get? id = some symbol)
    (hscope : symbol.scope = State.global) :
    symbol.afterBuiltins.slot.toNat = symbol.slot.toNat + 2 := by
  have hcount := size_symbols_le hwell hlacks
  have hslotted := slotted_run (State.slotted_start false) (State.sound_start false) tree.events
  have hfew : (run (.start false) tree.events).symbols.size ≤ UInt32.size := by
    rw [show UInt32.size = 2 ^ 32 from rfl]
    omega
  -- The slot is less than the number of symbols, which leaves two numbers of a machine word free.
  have hlt := (hslotted.dense State.global).toNat_slot_lt hfew hsymbol hscope
  rw [Symbol.afterBuiltins, if_pos hscope, UInt32.toNat_add, show (2 : UInt32).toNat = 2 from rfl]
  omega

end Resolution

/-- A program that does not mention the builtins has the same outcome with and without them, but for
the numbers of its symbols and the slots of the global ones. -/
theorem analyze_builtins {text : String} {tree : Tree} (h : Tree.ofText text = .ok tree)
    (hsize : tree.size < 2 ^ 32 - 2) (hlacks : tree.LacksBuiltins) :
    (∀ error, analyze true tree = .error error ↔ analyze false tree = .error error) ∧
    ∀ model, analyze false tree = .ok model →
      ∃ other, analyze true tree = .ok other ∧ model.AfterBuiltins other := by
  have hwell := Tree.wellLinked_of_ofText h
  have hnames := Change.renamesFunctions_builtins tree
  have hrelates := Change.relates_run_builtins hwell hlacks
  constructor
  · intro error
    rw [← Change.analyze_eq_error_iff hwell hnames hrelates, Change.rename_builtins]
  · intro model hmodel
    obtain ⟨other, hother, hmirrors⟩ := Change.exists_mirror hwell hnames hrelates hmodel
    rw [Change.rename_builtins] at hother
    refine ⟨other, hother, ?_⟩
    have hcomplaints := Model.diagnostics_of_analyze hwell hmodel
    obtain ⟨-, typed, hrun, -, rfl⟩ := analyze_eq_ok_iff.mp hmodel
    have hsymbols := (Typing.sameNames_run hrun).symbols
    have hnumber : Change.builtins.number = (· + 2) := funext Change.number_builtins
    refine ⟨hmirrors.scopes.trans ScopeTable.rename_id, ?_, ?_, ?_, ?_, ?_, ?_, ?_⟩
    · apply Array.toList_inj.mp
      rw [hmirrors.diagnostics, hcomplaints]
      exact List.map_congr_left fun found _ => found.2.rename_id
    · rw [hmirrors.facts]
      rfl
    · rw [hmirrors.facts]
      rfl
    · intro id
      rw [hmirrors.facts, NodeFacts.resolution_renumber, hnumber]
    · intro id
      rw [hmirrors.facts, NodeFacts.declared_renumber, hnumber]
    · rw [hmirrors.symbols, Change.onSymbols_builtins]
    · intro id symbol hsymbol
      apply Resolution.toNat_afterBuiltins hwell hlacks hsize
      rw [← hsymbols]
      exact hsymbol

/-- A program with no uses of the builtins, whose global variables have the next slots after
theirs. -/
def reticentText : String :=
  "[0,[\x7b\"kind\":\"var\",\"name\":\"x\",\"type\":\"integer\",\"sibling\":1\x7d,"
    ++ "\x7b\"kind\":\"fun\",\"name\":\"f\",\"type\":\"void\",\"children\":[null,2],\"sibling\":5\x7d,"
    ++ "\x7b\"kind\":\"compound\",\"children\":[3,4]\x7d,"
    ++ "\x7b\"kind\":\"var\",\"name\":\"x\",\"type\":\"integer\"\x7d,"
    ++ "\x7b\"kind\":\"return\",\"line\":2,\"children\":[6]\x7d,"
    ++ "\x7b\"kind\":\"call\",\"name\":\"g\",\"line\":3\x7d,"
    ++ "\x7b\"kind\":\"id\",\"name\":\"x\",\"line\":2\x7d]]"

def reticentTree : Tree where
  nodes := #[
    ⟨.declaration ⟨.variable, "x", .integer, none⟩, 0, .empty, some 1⟩,
    ⟨.declaration ⟨.function, "f", .void, none⟩, 0, ⟨none, some 2, none⟩, some 5⟩,
    ⟨.statement .block, 0, ⟨some 3, some 4, none⟩, none⟩,
    .leaf (.declaration ⟨.variable, "x", .integer, none⟩) 0,
    ⟨.statement .ret, 2, ⟨some 6, none, none⟩, none⟩,
    .leaf (.expression (.call "g")) 3,
    .leaf (.expression (.identifier "x")) 2]
  root := some 0

theorem ofText_reticentText : Tree.ofText reticentText = .ok reticentTree :=
  Tree.ofText_eq_ok
    (ofList_append (ofList_append (ofList_append (ofList_append (ofList_append (ofList_append rfl
      rfl) rfl) rfl) rfl) rfl) rfl)
    (by decide +kernel)

theorem builtins_reticentTree :
    Tree.ofText reticentText = .ok reticentTree ∧ reticentTree.size < 2 ^ 32 - 2 ∧
      reticentTree.LacksBuiltins ∧
      ∃ other, analyze true reticentTree = .ok other ∧
        other.facts.resolution 6 = some 4 ∧
        other.symbols.symbols.toList.map (fun symbol => (symbol.name, symbol.scope, symbol.slot)) =
          [("input", 0, 0), ("output", 0, 1), ("x", 0, 2), ("f", 0, 3), ("x", 1, 0)] ∧
        other.diagnostics.toList =
          [⟨3, .undeclaredIdentifier "g"⟩, ⟨2, .returnTypeMismatch "f" .void (some .integer)⟩] := by
  obtain ⟨model, hmodel⟩ : ∃ model, analyze false reticentTree = .ok model := ⟨_, rfl⟩
  have hsize : reticentTree.size < 2 ^ 32 - 2 := by decide
  have hlacks : reticentTree.LacksBuiltins := by decide
  obtain ⟨other, hother, hafter⟩ :=
    (analyze_builtins ofText_reticentText hsize hlacks).2 model hmodel
  refine ⟨ofText_reticentText, hsize, hlacks, other, hother, ?_, ?_, ?_⟩
  · rw [hafter.resolution]
    cases hmodel
    rfl
  · rw [hafter.symbols, Array.toList_append, Array.toList_map]
    cases hmodel
    rfl
  · rw [hafter.diagnostics]
    cases hmodel
    rfl

end ScopeCheck
