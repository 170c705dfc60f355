import Mathlib.Data.List.Forall2
import ScopeCheck.Proofs.Report.Agreement
import ScopeCheck.Proofs.Text.Table

namespace ScopeCheck

open Text (OneLine Table)

namespace SymbolRow

theorem endsVisibly_cells {row : SymbolRow} (h : row.lines ≠ []) : Table.EndsVisibly row.cells := by
  obtain ⟨line, hline⟩ : ∃ line, row.lines.getLast? = some line :=
    Option.ne_none_iff_exists'.mp fun hnone => h (List.getLast?_eq_none_iff.mp hnone)
  obtain ⟨c, hc, hblank⟩ := Text.exists_getLast?_toString line.toNat
  have hlast : (row.lines.map fun line => toString line.toNat).getLast? =
      some (toString line.toNat) := by
    rw [List.getLast?_map, hline]
    rfl
  obtain ⟨before, hbefore⟩ :
      ∃ before, row.linesText.toList = before ++ (toString line.toNat).toList :=
    Text.exists_intercalate_eq_append hlast
  refine ⟨row.linesText, c, rfl, ?_, hblank⟩
  rw [hbefore, List.getLast?_append, hc]
  rfl

theorem oneLine_cells {row : SymbolRow} (hname : OneLine row.name) (hscope : OneLine row.scope) :
    ∀ cell ∈ row.cells, OneLine cell := by
  have hlines : OneLine row.linesText := by
    refine Text.oneLine_intercalate (by decide) fun text htext => ?_
    obtain ⟨line, -, rfl⟩ := List.mem_map.mp htext
    exact Text.oneLine_toString line.toNat
  simp only [cells, List.forall_mem_cons]
  exact ⟨hname, row.type.oneLine_text, Text.oneLine_toString _, hscope, hlines, nofun⟩

end SymbolRow

namespace Model

variable {model : Model}

theorem exists_of_mem_listing {row : SymbolRow} (h : row ∈ model.listing) :
    ∃ id symbol scope found, model.symbols.get? id = some symbol ∧
      model.scopes.get? scope = some found ∧
      row = .ofSymbol found.name (model.scopes.depth scope) symbol := by
  obtain ⟨scope, -, hrow⟩ := List.mem_flatMap.mp h
  rw [rowsOf] at hrow
  cases hfound : model.scopes.get? scope with
  | none =>
    rw [hfound] at hrow
    cases hrow
  | some found =>
    rw [hfound] at hrow
    obtain ⟨symbol, hsymbol, rfl⟩ := List.mem_map.mp hrow
    obtain ⟨id, -, hid⟩ := List.mem_filterMap.mp hsymbol
    exact ⟨id, symbol, scope, found, hid, hfound, rfl⟩

theorem regular_table
    (hsymbols : ∀ id symbol, model.symbols.get? id = some symbol → OneLine symbol.name)
    (hscopes : ∀ id scope, model.scopes.get? id = some scope → OneLine scope.name) :
    (SymbolRow.table model.listing).Regular := by
  have hrows : ∀ cells ∈ (SymbolRow.table model.listing).rows, cells.length = 5 ∧
      (∀ cell ∈ cells, OneLine cell) ∧ Table.EndsVisibly cells := by
    intro cells hcells
    obtain ⟨row, hrow, rfl⟩ := List.mem_map.mp hcells
    obtain ⟨id, symbol, scope, found, hsymbol, hfound, rfl⟩ := exists_of_mem_listing hrow
    exact ⟨rfl, SymbolRow.oneLine_cells (hsymbols id symbol hsymbol) (hscopes scope found hfound),
      SymbolRow.endsVisibly_cells (List.cons_ne_nil _ _)⟩
  have hheader : Table.EndsVisibly (SymbolRow.table model.listing).header :=
    ⟨"Lines", 's', rfl, rfl, by decide⟩
  have hone : ∀ cell ∈ ["Name", "Type", "Slot", "Scope", "Lines"], OneLine cell := by decide
  refine ⟨?_, ?_, ?_⟩
  · exact List.forall_mem_cons.mpr ⟨rfl, fun cells hcells => (hrows cells hcells).1⟩
  · exact List.forall_mem_cons.mpr ⟨hone, fun cells hcells => (hrows cells hcells).2.1⟩
  · exact List.forall_mem_cons.mpr ⟨hheader, fun cells hcells => (hrows cells hcells).2.2⟩

/-- The table of a listing has a line for the header, one for the dashes and one for each row. All of
them have their cells at the places that the widths of the columns give, and no line of a row is cut
off at its end. -/
theorem aligned_listing
    (hsymbols : ∀ id symbol, model.symbols.get? id = some symbol → OneLine symbol.name)
    (hscopes : ∀ id scope, model.scopes.get? id = some scope → OneLine scope.name) :
    ∃ (widths : List Nat) (header rule : List Char) (lines : List (List Char)),
      widths.length = 5 ∧
      (∀ k width, widths[k]? = some width →
        IsGreatest ((SymbolRow.table model.listing).cellSizes k) width) ∧
      Text.EndsLine (SymbolRow.table model.listing).text ∧
      Text.lines (SymbolRow.table model.listing).text = header :: rule :: lines ∧
      lines.length = model.listing.length ∧
      Table.LaidOut widths ["Name", "Type", "Slot", "Scope", "Lines"] header ∧
      Table.LaidOut widths (Table.rule widths) rule ∧
      List.Forall₂ (fun row line =>
        Table.LaidOut widths
          [row.name, row.type.text, toString row.slot.toNat, row.scope, row.linesText] line ∧
        Table.joinCells (row.cells.zip widths) = line ∧ Text.trimEnd line = line)
        model.listing lines := by
  have hregular := regular_table hsymbols hscopes
  refine ⟨(SymbolRow.table model.listing).widths, _, _, _, hregular.length_widths,
    fun k width => hregular.isGreatest_width, .flatMap (fun line => .line line) _,
    hregular.lines_text, ?_, (hregular.laidOut List.mem_cons_self).2, hregular.laidOut_rule.2, ?_⟩
  · rw [List.length_map, SymbolRow.table, List.length_map]
  · refine List.forall₂_map_right_iff.mpr (List.forall₂_map_right_iff.mpr ?_)
    refine List.forall₂_same.mpr fun row hrow => ?_
    have hcells : row.cells ∈ (SymbolRow.table model.listing).rows := List.mem_map_of_mem hrow
    obtain ⟨hline, hlaid⟩ := hregular.laidOut (List.mem_cons_of_mem _ hcells)
    refine ⟨hlaid, hline.symm, ?_⟩
    rw [hline]
    exact hline

/-- The names have wide characters, blanks at their ends, or no characters at all. -/
def unevenTree : Tree where
  nodes := #[
    ⟨.declaration ⟨.variable, "", .integer, none⟩, 1, ⟨none, none, none⟩, some 1⟩,
    ⟨.declaration ⟨.function, "a b ", .void, none⟩, 2, ⟨none, some 2, none⟩, none⟩,
    ⟨.statement .block, 2, ⟨some 3, some 4, none⟩, none⟩,
    .leaf (.declaration ⟨.variable, "ñé", .array, none⟩) 3,
    .leaf (.expression (.identifier "ñé")) 4]
  root := some 0

theorem aligned_listing_unevenTree :
    ∃ model, analyze false unevenTree = .ok model ∧
      (∀ id symbol, model.symbols.get? id = some symbol → OneLine symbol.name) ∧
      (∀ id scope, model.scopes.get? id = some scope → OneLine scope.name) ∧
      ∃ (widths : List Nat) (header rule first second third : List Char),
        Text.lines (SymbolRow.table model.listing).text = [header, rule, first, second, third] ∧
        Table.LaidOut widths ["", "int", "0", "Global", "1"] first ∧
        Table.LaidOut widths ["a b ", "void", "1", "Global", "2"] second ∧
        Table.LaidOut widths ["ñé", "int[]", "0", "a b ", "3, 4"] third := by
  obtain ⟨model, hmodel⟩ : ∃ model, analyze false unevenTree = .ok model := ⟨_, rfl⟩
  have hsymbols : ∀ symbol ∈ model.symbols.symbols, OneLine symbol.name := by
    cases hmodel
    decide +kernel
  have hscopes : ∀ scope ∈ model.scopes.scopes, OneLine scope.name := by
    cases hmodel
    decide +kernel
  have hlisting : model.listing = [
      ⟨"", .variable, .integer, 0, "Global", 0, [1]⟩,
      ⟨"a b ", .function, .void, 1, "Global", 0, [2]⟩,
      ⟨"ñé", .variable, .array, 0, "a b ", 1, [3, 4]⟩] := by
    cases hmodel
    decide +kernel
  have hsymbolsAt : ∀ id symbol, model.symbols.get? id = some symbol → OneLine symbol.name :=
    fun _ symbol hsymbol => hsymbols symbol (Array.mem_of_getElem? hsymbol)
  have hscopesAt : ∀ id scope, model.scopes.get? id = some scope → OneLine scope.name :=
    fun _ scope hscope => hscopes scope (Array.mem_of_getElem? hscope)
  obtain ⟨widths, header, rule, lines, -, -, -, hlines, -, -, -, hrows⟩ :=
    aligned_listing hsymbolsAt hscopesAt
  rw [hlisting] at hrows hlines
  obtain _ | ⟨hfirst, _ | ⟨hsecond, _ | ⟨hthird, _ | _⟩⟩⟩ := hrows
  exact ⟨model, hmodel, hsymbolsAt, hscopesAt, widths, header, rule, _, _, _, hlisting ▸ hlines,
    hfirst.1, hsecond.1, hthird.1⟩

end Model

end ScopeCheck
