import ScopeCheck.Proofs.Analysis.RecastTypes
import ScopeCheck.Proofs.Tree.Renaming

namespace ScopeCheck

/-- The tree with every line replaced by `line`, and with other constants and sizes. -/
def Tree.relabel (line : UInt32 → UInt32) (values : NodeId → Int64) (sizes : NodeId → Option UInt32)
    (tree : Tree) : Tree :=
  { tree with
    nodes := tree.nodes.mapIdx fun id node =>
      { node with
        label := node.label.recast (fun _ => values id) (fun _ => sizes id)
        line := line node.line } }

def Model.mapLines (f : UInt32 → UInt32) (model : Model) : Model :=
  { model with
    symbols := model.symbols.mapLines f
    diagnostics := model.diagnostics.map (Diagnostic.mapLine f) }

namespace Recast

variable (line : UInt32 → UInt32) (values : NodeId → Int64) (sizes : NodeId → Option UInt32)

def relabeling : Recast where
  place id := id
  line
  value id _ := values id
  size id _ := sizes id
  injective _ _ h := h

variable {line values sizes}

theorem carries_relabel (tree : Tree) :
    (relabeling line values sizes).Carries tree (tree.relabel line values sizes) where
  root := by simp [Tree.relabel, relabeling]
  node id node hnode := by
    rw [Tree.node?] at hnode
    simp [Tree.relabel, relabeling, Tree.node?, hnode, onNode]

theorem onSymbols_relabeling (table : SymbolTable) :
    (relabeling line values sizes).onSymbols table = table.mapLines line := by
  have horigin : ∀ origin : Origin, origin.mapNode (relabeling line values sizes).place = origin := by
    intro origin
    cases origin <;> rfl
  simp only [onSymbols, SymbolTable.mapLines, SymbolTable.mk.injEq, and_true]
  congr 1
  funext symbol
  rw [onSymbol, horigin]
  rfl

theorem RelatesModel.eq_mapLines {model other : Model}
    (h : (relabeling line values sizes).RelatesModel model other) : other = model.mapLines line := by
  obtain ⟨scopes, symbols, facts, diagnostics⟩ := other
  obtain rfl := h.scopes
  obtain rfl := h.facts.eq_of_place fun _ => rfl
  have hsymbols := h.symbols
  rw [onSymbols_relabeling] at hsymbols
  obtain rfl := hsymbols
  obtain rfl := h.diagnostics
  rfl

end Recast

theorem line_of_builtin {tree : Tree} {builtins : Bool} {model : Model}
    (hmodel : analyze builtins tree = .ok model) {id : SymbolId} {symbol : Symbol}
    (hsymbol : model.symbols.get? id = some symbol) {params : List ValueType}
    (horigin : symbol.origin = .builtin params) : symbol.line = 0 := by
  obtain ⟨-, typed, hrun, -, rfl⟩ := analyze_eq_ok_iff.mp hmodel
  rw [State.toModel, (Typing.sameNames_run hrun).symbols] at hsymbol
  have hgrows : Resolution.Grows (.start builtins) (Resolution.run (.start builtins) tree.events)
    tree.events := Resolution.grows_run tree.events
  rcases hgrows.added id symbol hsymbol with hlt | hborn
  · obtain ⟨older, holder, hdefinition, -⟩ := hgrows.symbols.exists_older hsymbol hlt
    obtain ⟨builtin, -, hbuiltin⟩ :=
      Resolution.exists_builtin (SymbolTable.mem_definitions holder)
    rw [hdefinition, ← hbuiltin]
    rfl
  · obtain ⟨_, _, hnode, -⟩ := hborn.exists_enter
    rw [hnode] at horigin
    cases horigin

/-- An analysis of a tree with other lines, constants and sizes gives what the tree itself gives,
with the lines replaced in the same way. Builtins keep line zero. -/
theorem analyze_relabel {text : String} {tree : Tree} (h : Tree.ofText text = .ok tree)
    (builtins : Bool) (line : UInt32 → UInt32) (values : NodeId → Int64)
    (sizes : NodeId → Option UInt32) :
    (analyze builtins (tree.relabel line values sizes) =
      match analyze builtins tree with
      | .error error => .error (error.mapLine line)
      | .ok model => .ok (model.mapLines line)) ∧
    ∀ model, analyze builtins tree = .ok model → ∀ id symbol params,
      model.symbols.get? id = some symbol → symbol.origin = .builtin params → symbol.line = 0 := by
  have hwell := Tree.wellLinked_of_ofText h
  have hwell' : (tree.relabel line values sizes).WellLinked :=
    Tree.wellLinked_mapIdx hwell fun _ _ => rfl
  have houtcomes := Recast.outcomes_analyze (Recast.carries_relabel tree) hwell hwell' builtins
  refine ⟨?_, fun model hmodel id symbol params hsymbol => line_of_builtin hmodel hsymbol⟩
  generalize analyze builtins tree = result at houtcomes ⊢
  generalize analyze builtins (tree.relabel line values sizes) = other at houtcomes ⊢
  cases houtcomes with
  | error error => rfl
  | ok hmodels => exact congrArg _ hmodels.eq_mapLines

/-- A constant is added to an array. -/
def sizedText : String :=
  "[0,[\x7b\"kind\":\"var\",\"name\":\"a\",\"type\":\"array\",\"size\":3,\"line\":1,\"sibling\":1\x7d,"
    ++ "\x7b\"kind\":\"op\",\"op\":\"plus\",\"line\":2,\"children\":[2,3]\x7d,"
    ++ "\x7b\"kind\":\"id\",\"name\":\"a\",\"line\":3\x7d,"
    ++ "\x7b\"kind\":\"const\",\"value\":4,\"line\":2\x7d]]"

def sizedTree : Tree where
  nodes := #[
    ⟨.declaration ⟨.variable, "a", .array, some 3⟩, 1, .empty, some 1⟩,
    ⟨.expression (.operation .plus), 2, ⟨some 2, some 3, none⟩, none⟩,
    .leaf (.expression (.identifier "a")) 3,
    .leaf (.expression (.constant 4)) 2]
  root := some 0

theorem ofText_sizedText : Tree.ofText sizedText = .ok sizedTree :=
  Tree.ofText_eq_ok (ofList_append (ofList_append (ofList_append rfl rfl) rfl) rfl)
    (by decide +kernel)

/-- Ten lines further down, with a longer array and another constant. -/
theorem analyze_relabel_sizedTree :
    Tree.ofText sizedText = .ok sizedTree ∧
      ∃ model, analyze true (sizedTree.relabel (· + 10) (fun _ => 7) fun _ => some 5) = .ok model ∧
        model.diagnostics.toList = [⟨13, .operandTypeMismatch .plus .array .integer⟩] ∧
        model.symbols.symbols.toList.map (·.line) = [0, 0, 11] ∧
        model.symbols.symbols.toList.map (·.references) = [#[], #[], #[13]] := by
  obtain ⟨hrelabel, -⟩ :=
    analyze_relabel ofText_sizedText true (· + 10) (fun _ => 7) fun _ => some 5
  obtain ⟨model, hmodel, hdiagnostics, hlines, hreferences⟩ :
      ∃ model, analyze true sizedTree = .ok model ∧
        (model.mapLines (· + 10)).diagnostics.toList =
          [⟨13, .operandTypeMismatch .plus .array .integer⟩] ∧
        (model.mapLines (· + 10)).symbols.symbols.toList.map (·.line) = [0, 0, 11] ∧
        (model.mapLines (· + 10)).symbols.symbols.toList.map (·.references) =
          [#[], #[], #[13]] := ⟨_, rfl, by decide +kernel, by decide +kernel, by decide +kernel⟩
  rw [hmodel] at hrelabel
  exact ⟨ofText_sizedText, _, hrelabel, hdiagnostics, hlines, hreferences⟩

end ScopeCheck
