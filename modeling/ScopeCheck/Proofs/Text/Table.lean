import Mathlib.Order.Bounds.Defs
import Mathlib.Order.Lattice
import ScopeCheck.Text.Table
import ScopeCheck.Proofs.Text.Bytes
import ScopeCheck.Proofs.Text.Lines

namespace ScopeCheck.Text

theorem trimEnd_eq_self {text : List Char} {c : Char} (hlast : text.getLast? = some c)
    (hc : isBlank c = false) : trimEnd text = text := by
  obtain ⟨before, rfl⟩ := List.getLast?_eq_some_iff.mp hlast
  have hkeep : (c :: before.reverse).dropWhile isBlank = c :: before.reverse :=
    List.dropWhile_cons_of_neg (Bool.not_eq_true _ ▸ hc)
  rw [trimEnd, List.reverse_append, List.reverse_singleton, List.singleton_append, hkeep,
    List.reverse_cons, List.reverse_reverse]

theorem exists_intercalate_eq_append {separator : String} {texts : List String} {last : String}
    (hlast : texts.getLast? = some last) :
    ∃ before, (separator.intercalate texts).toList = before ++ last.toList := by
  induction texts with
  | nil => cases hlast
  | cons text texts ih =>
    cases texts with
    | nil =>
      obtain rfl : text = last := Option.some.inj hlast
      exact ⟨[], by rw [String.intercalate_singleton, List.nil_append]⟩
    | cons next texts =>
      obtain ⟨before, hbefore⟩ := ih (List.getLast?_cons_cons ▸ hlast)
      refine ⟨(text ++ separator).toList ++ before, ?_⟩
      rw [String.intercalate_cons_cons, String.toList_append, hbefore, List.append_assoc]

theorem isBlank_of_isDigit {c : Char} (h : c.isDigit) : isBlank c = false := by
  have hlow : 48 ≤ c.toNat := (Char.isDigit_iff_toNat.mp h).1
  have hhigh : c.toNat ≤ 57 := (Char.isDigit_iff_toNat.mp h).2
  simp only [isBlank, blankRanges, List.any_cons, List.any_nil, Bool.or_false, Bool.or_eq_false_iff,
    decide_eq_false_iff_not]
  omega

theorem exists_getLast?_toString (n : Nat) :
    ∃ c, (toString n).toList.getLast? = some c ∧ isBlank c = false := by
  have hdigits : (toString n).toList = Nat.toDigits 10 n := String.toList_ofList
  rw [hdigits]
  cases hlast : (Nat.toDigits 10 n).getLast? with
  | none => exact absurd (List.getLast?_eq_none_iff.mp hlast) Nat.toDigits_ne_nil
  | some c =>
    have hdigit := Nat.isDigit_of_mem_toDigits (by decide) (by decide) (List.mem_of_getLast? hlast)
    exact ⟨c, rfl, isBlank_of_isDigit hdigit⟩

namespace Table

variable {table : Table} {widths : List Nat} {cells : List String} {items : List (String × Nat)}
  {k width : Nat}

/-- How many bytes the cells of a column have. -/
def cellSizes (table : Table) (k : Nat) : Set Nat :=
  {size | ∃ cells ∈ table.header :: table.rows, ∃ cell, cells[k]? = some cell ∧
    cell.utf8ByteSize = size}

/-- Where a column starts, counted in characters: behind the columns to its left, each with its two
blanks. -/
def offset : List Nat → Nat → Nat
  | width :: widths, k + 1 => width + 2 + offset widths k
  | _, _ => 0

/-- A line shows each of its cells where the column starts. The last cell ends the line, and the
others are followed by blanks up to the next column. -/
structure LaidOut (widths : List Nat) (cells : List String) (line : List Char) : Prop where
  padded : ∀ k cell width, k + 1 < cells.length → cells[k]? = some cell →
    widths[k]? = some width → cell.length ≤ width ∧
      (line.drop (offset widths k)).take (width + 2) =
        cell.toList ++ List.replicate (width + 2 - cell.length) ' '
  last : ∀ k cell, k + 1 = cells.length → cells[k]? = some cell →
    line.drop (offset widths k) = cell.toList

/-! ### The widths -/

theorem length_foldl_widen {rows : List (List String)}
    (h : ∀ cells ∈ rows, cells.length = widths.length) :
    (rows.foldl widen widths).length = widths.length := by
  induction rows generalizing widths with
  | nil => rfl
  | cons cells rows ih =>
    have hcells : (widen widths cells).length = widths.length := by
      rw [widen, List.length_zipWith, h cells List.mem_cons_self, Nat.min_self]
    rw [List.foldl_cons, ih fun others hmem => ?_, hcells]
    rw [hcells]
    exact h others (List.mem_cons_of_mem _ hmem)

theorem isGreatest_foldl_widen (rows : List (List String)) (hwidth : widths[k]? = some width)
    (h : ∀ cells ∈ rows, k < cells.length) :
    ∃ last, (rows.foldl widen widths)[k]? = some last ∧
      IsGreatest {size | size = width ∨ ∃ cells ∈ rows, ∃ cell, cells[k]? = some cell ∧
        cell.utf8ByteSize = size} last := by
  induction rows generalizing widths width with
  | nil =>
    refine ⟨width, hwidth, .inl rfl, ?_⟩
    rintro size (rfl | ⟨cells, hcells, -⟩)
    · exact Nat.le_refl _
    · cases hcells
  | cons cells rows ih =>
    obtain ⟨cell, hcell⟩ : ∃ cell, cells[k]? = some cell :=
      ⟨_, List.getElem?_eq_getElem (h cells List.mem_cons_self)⟩
    have hnext : (widen widths cells)[k]? = some (max width cell.utf8ByteSize) := by
      rw [widen, List.getElem?_zipWith, hwidth, hcell]
    obtain ⟨last, hlast, hmem, hmost⟩ :=
      ih hnext fun others hothers => h others (List.mem_cons_of_mem _ hothers)
    have hmax : max width cell.utf8ByteSize ≤ last := hmost (.inl rfl)
    refine ⟨last, hlast, ?_, ?_⟩
    · rcases hmem with hlast | ⟨others, hothers, hsize⟩
      · rcases Nat.le_total width cell.utf8ByteSize with hle | hle
        · exact .inr ⟨cells, List.mem_cons_self, cell, hcell, by rw [hlast, Nat.max_eq_right hle]⟩
        · exact .inl (by rw [hlast, Nat.max_eq_left hle])
      · exact .inr ⟨others, List.mem_cons_of_mem _ hothers, hsize⟩
    · rintro size (rfl | ⟨others, hothers, other, hother, rfl⟩)
      · exact Nat.le_trans (Nat.le_max_left _ _) hmax
      · rcases List.mem_cons.mp hothers with rfl | hothers
        · cases hcell.symm.trans hother
          exact Nat.le_trans (Nat.le_max_right _ _) hmax
        · exact hmost (.inr ⟨others, hothers, other, hother, rfl⟩)

/-! ### The cells of a line -/

theorem pad_eq {cell : String} (width : Nat) :
    pad width cell = cell.toList ++ List.replicate (width - cell.length) ' ' := rfl

theorem length_pad {cell : String} (h : cell.length ≤ width) : (pad width cell).length = width := by
  rw [pad_eq, List.length_append, List.length_replicate, String.length_toList]
  omega

theorem joinCells_cons_cons (item next : String × Nat) (rest : List (String × Nat)) :
    joinCells (item :: next :: rest) =
      pad item.2 item.1 ++ [' ', ' '] ++ joinCells (next :: rest) := rfl

theorem drop_joinCells (hfit : ∀ item ∈ items, item.1.length ≤ item.2) (hk : k < items.length) :
    (joinCells items).drop (offset (items.map Prod.snd) k) = joinCells (items.drop k) := by
  induction k generalizing items with
  | zero => cases items <;> rfl
  | succ k ih =>
    match items, hfit, hk with
    | item :: next :: rest, hfit, hk =>
      have hlength : (pad item.2 item.1 ++ [' ', ' ']).length = item.2 + 2 := by
        rw [List.length_append, length_pad (hfit item List.mem_cons_self)]
        rfl
      have hoffset : offset ((item :: next :: rest).map Prod.snd) (k + 1) =
          (item.2 + 2) + offset ((next :: rest).map Prod.snd) k := rfl
      rw [hoffset, joinCells_cons_cons, ← List.drop_drop, List.drop_left' hlength,
        List.drop_succ_cons]
      exact ih (fun other hother => hfit other (List.mem_cons_of_mem _ hother))
        (Nat.lt_of_succ_lt_succ hk)

theorem take_joinCells {cell : String} {next : String × Nat} {rest : List (String × Nat)}
    (h : cell.length ≤ width) :
    (joinCells ((cell, width) :: next :: rest)).take (width + 2) =
      cell.toList ++ List.replicate (width + 2 - cell.length) ' ' := by
  have hlength : (pad width cell ++ [' ', ' ']).length = width + 2 := by
    rw [List.length_append, length_pad h]
    rfl
  have hblanks : List.replicate (width + 2 - cell.length) ' ' =
      List.replicate (width - cell.length) ' ' ++ [' ', ' '] := by
    rw [Nat.sub_add_comm h, List.replicate_add]
    rfl
  rw [joinCells_cons_cons, List.take_left' hlength, hblanks, pad_eq, List.append_assoc]

theorem mem_joinCells {c : Char} (h : c ∈ joinCells items) :
    c = ' ' ∨ ∃ item ∈ items, c ∈ item.1.toList := by
  induction items with
  | nil => cases h
  | cons item rest ih =>
    cases rest with
    | nil => exact .inr ⟨item, List.mem_cons_self, h⟩
    | cons next rest =>
      rw [joinCells_cons_cons, pad_eq] at h
      simp only [List.mem_append, List.mem_replicate, List.mem_cons, List.not_mem_nil,
        or_false, or_self] at h
      rcases h with ((hcell | ⟨-, hblank⟩) | hblank) | hrest
      · exact .inr ⟨item, List.mem_cons_self, hcell⟩
      · exact .inl hblank
      · exact .inl hblank
      · rcases ih hrest with hblank | ⟨other, hother, hmem⟩
        · exact .inl hblank
        · exact .inr ⟨other, List.mem_cons_of_mem _ hother, hmem⟩

theorem getLast?_joinCells {item : String × Nat} {c : Char} (hitem : items.getLast? = some item)
    (hc : item.1.toList.getLast? = some c) : (joinCells items).getLast? = some c := by
  induction items with
  | nil => cases hitem
  | cons first rest ih =>
    cases rest with
    | nil =>
      obtain rfl : first = item := Option.some.inj hitem
      exact hc
    | cons next rest =>
      rw [joinCells_cons_cons, List.getLast?_append, ih (List.getLast?_cons_cons ▸ hitem)]
      rfl

theorem laidOut_joinCells (hlength : cells.length = widths.length)
    (hfit : ∀ item ∈ cells.zip widths, item.1.length ≤ item.2) :
    LaidOut widths cells (joinCells (cells.zip widths)) := by
  have hwidths : (cells.zip widths).map Prod.snd = widths :=
    List.map_snd_zip (Nat.le_of_eq hlength.symm)
  have hzip : (cells.zip widths).length = cells.length := by
    rw [List.length_zip, hlength, Nat.min_self]
  have hdrop : ∀ k cell width, cells[k]? = some cell → widths[k]? = some width →
      (joinCells (cells.zip widths)).drop (offset widths k) =
          joinCells ((cell, width) :: (cells.zip widths).drop (k + 1)) ∧
        cell.length ≤ width := by
    intro k cell width hcell hwidth
    have hitem : (cells.zip widths)[k]? = some (cell, width) :=
      List.getElem?_zip_eq_some.mpr ⟨hcell, hwidth⟩
    obtain ⟨hk, hget⟩ := List.getElem?_eq_some_iff.mp hitem
    have hstart := drop_joinCells hfit hk
    rw [hwidths, List.drop_eq_getElem_cons hk, hget] at hstart
    exact ⟨hstart, hfit _ (List.mem_of_getElem? hitem)⟩
  refine ⟨fun k cell width hk hcell hwidth => ?_, fun k cell hk hcell => ?_⟩
  · obtain ⟨hstart, hle⟩ := hdrop k cell width hcell hwidth
    refine ⟨hle, ?_⟩
    rw [hstart, List.drop_eq_getElem_cons (hzip ▸ hk)]
    exact take_joinCells hle
  · obtain ⟨width, hwidth⟩ : ∃ width, widths[k]? = some width :=
      ⟨_, List.getElem?_eq_getElem (by omega)⟩
    rw [(hdrop k cell width hcell hwidth).1, List.drop_eq_nil_of_le (by omega)]
    rfl

/-! ### The lines of a table -/

/-- The last of some cells ends with a character that is seen. -/
def EndsVisibly (cells : List String) : Prop :=
  ∃ cell c, cells.getLast? = some cell ∧ cell.toList.getLast? = some c ∧ isBlank c = false

theorem line_eq (hlength : cells.length = widths.length) (hlast : EndsVisibly cells) :
    line widths cells = joinCells (cells.zip widths) := by
  obtain ⟨cell, c, hcell, hc, hblank⟩ := hlast
  obtain ⟨width, hitem⟩ : ∃ width, (cells.zip widths).getLast? = some (cell, width) := by
    have hget := hcell
    rw [List.getLast?_eq_getElem?] at hget ⊢
    rw [List.length_zip, ← hlength, Nat.min_self]
    obtain ⟨hlt, -⟩ := List.getElem?_eq_some_iff.mp hget
    exact ⟨_, List.getElem?_zip_eq_some.mpr ⟨hget, List.getElem?_eq_getElem (hlength ▸ hlt)⟩⟩
  exact trimEnd_eq_self (getLast?_joinCells hitem hc) hblank

/-- All lines have a cell in each column, no cell goes on in a new line, and the last cells end with
characters that are seen. -/
structure Regular (table : Table) : Prop where
  columns : ∀ cells ∈ table.header :: table.rows, cells.length = table.header.length
  oneLine : ∀ cells ∈ table.header :: table.rows, ∀ cell ∈ cells, OneLine cell
  ends : ∀ cells ∈ table.header :: table.rows, EndsVisibly cells

namespace Regular

theorem length_widths (h : table.Regular) : table.widths.length = table.header.length := by
  have hsizes : (table.header.map String.utf8ByteSize).length = table.header.length :=
    List.length_map _
  rw [widths, length_foldl_widen fun cells hcells => ?_, hsizes]
  rw [hsizes]
  exact h.columns cells (List.mem_cons_of_mem _ hcells)

theorem isGreatest_width (h : table.Regular) (hwidth : table.widths[k]? = some width) :
    IsGreatest (table.cellSizes k) width := by
  have hk : k < table.header.length := by
    obtain ⟨hlt, -⟩ := List.getElem?_eq_some_iff.mp hwidth
    rwa [h.length_widths] at hlt
  have hfirst : (table.header.map String.utf8ByteSize)[k]? =
      some table.header[k].utf8ByteSize := by
    rw [List.getElem?_map, List.getElem?_eq_getElem hk]
    rfl
  obtain ⟨last, hlast, hmem, hmost⟩ := isGreatest_foldl_widen table.rows hfirst
    fun cells hcells => by rwa [h.columns cells (List.mem_cons_of_mem _ hcells)]
  obtain rfl : last = width := Option.some.inj (hlast.symm.trans hwidth)
  refine ⟨?_, ?_⟩
  · rcases hmem with rfl | ⟨cells, hcells, hsize⟩
    · exact ⟨table.header, List.mem_cons_self, _, List.getElem?_eq_getElem hk, rfl⟩
    · exact ⟨cells, List.mem_cons_of_mem _ hcells, hsize⟩
  · rintro size ⟨cells, hcells, cell, hcell, rfl⟩
    rcases List.mem_cons.mp hcells with rfl | hcells
    · obtain ⟨-, rfl⟩ := List.getElem?_eq_some_iff.mp hcell
      exact hmost (.inl rfl)
    · exact hmost (.inr ⟨cells, hcells, cell, hcell, rfl⟩)

theorem laidOut (h : table.Regular) (hcells : cells ∈ table.header :: table.rows) :
    line table.widths cells = joinCells (cells.zip table.widths) ∧
      LaidOut table.widths cells (line table.widths cells) := by
  have hlength : cells.length = table.widths.length := by
    rw [h.length_widths, h.columns cells hcells]
  have hline := line_eq hlength (h.ends cells hcells)
  refine ⟨hline, hline ▸ laidOut_joinCells hlength fun item hitem => ?_⟩
  obtain ⟨k, hk⟩ := List.mem_iff_getElem?.mp hitem
  obtain ⟨hcell, hwidth⟩ := List.getElem?_zip_eq_some.mp hk
  exact Nat.le_trans (length_le_utf8ByteSize item.1)
    ((h.isGreatest_width hwidth).2 ⟨cells, hcells, item.1, hcell, rfl⟩)

/-- The dashes end visibly, because no column is empty whose header is seen. -/
theorem endsVisibly_rule (h : table.Regular) : EndsVisibly (rule table.widths) := by
  obtain ⟨cell, c, hcell, hc, -⟩ := h.ends table.header List.mem_cons_self
  rw [List.getLast?_eq_getElem?] at hcell
  obtain ⟨hk, -⟩ := List.getElem?_eq_some_iff.mp hcell
  obtain ⟨width, hwidth⟩ : ∃ width, table.widths[table.header.length - 1]? = some width :=
    ⟨_, List.getElem?_eq_getElem (by rwa [h.length_widths])⟩
  have hpos : 0 < width := by
    have hle := (h.isGreatest_width hwidth).2 ⟨table.header, List.mem_cons_self, cell, hcell, rfl⟩
    have hlength : 0 < cell.length := by
      rw [← String.length_toList]
      exact List.length_pos_of_mem (List.mem_of_getLast? hc)
    exact Nat.lt_of_lt_of_le hlength (Nat.le_trans (length_le_utf8ByteSize cell) hle)
  refine ⟨String.ofList (List.replicate width '-'), '-', ?_, ?_, by decide⟩
  · rw [rule, List.getLast?_map, List.getLast?_eq_getElem?, h.length_widths, hwidth]
    rfl
  · rw [String.toList_ofList, List.getLast?_replicate, if_neg (Nat.ne_of_gt hpos)]

theorem laidOut_rule (h : table.Regular) :
    line table.widths (rule table.widths) = joinCells ((rule table.widths).zip table.widths) ∧
      LaidOut table.widths (rule table.widths) (line table.widths (rule table.widths)) := by
  have hlength : (rule table.widths).length = table.widths.length := List.length_map _
  have hline := line_eq hlength h.endsVisibly_rule
  refine ⟨hline, hline ▸ laidOut_joinCells hlength fun item hitem => ?_⟩
  obtain ⟨k, hk⟩ := List.mem_iff_getElem?.mp hitem
  obtain ⟨hcell, hwidth⟩ := List.getElem?_zip_eq_some.mp hk
  rw [rule, List.getElem?_map, hwidth] at hcell
  rw [← Option.some.inj hcell, String.length_ofList, List.length_replicate]

theorem newLine_not_mem (h : table.Regular) {written : List Char} (hwritten : written ∈ table.lines) :
    '\n' ∉ written := by
  have hcells : ∀ cells : List String, (∀ cell ∈ cells, OneLine cell) →
      '\n' ∉ joinCells (cells.zip table.widths) := by
    intro cells hcells hmem
    rcases mem_joinCells hmem with hblank | ⟨item, hitem, hmem⟩
    · exact absurd hblank (by decide)
    · exact hcells item.1 (List.of_mem_zip hitem).1 hmem
  rw [lines, List.mem_map] at hwritten
  obtain ⟨cells, hmem, rfl⟩ := hwritten
  have hrule : ∀ cell ∈ rule table.widths, OneLine cell := by
    intro cell hcell
    obtain ⟨width, -, rfl⟩ := List.mem_map.mp hcell
    rw [OneLine, String.toList_ofList, List.mem_replicate]
    exact fun hdash => absurd hdash.2 (by decide)
  rcases List.mem_cons.mp hmem with rfl | hmem
  · rw [(h.laidOut List.mem_cons_self).1]
    exact hcells _ (h.oneLine _ List.mem_cons_self)
  · rcases List.mem_cons.mp hmem with rfl | hmem
    · rw [h.laidOut_rule.1]
      exact hcells _ hrule
    · rw [(h.laidOut (List.mem_cons_of_mem _ hmem)).1]
      exact hcells _ (h.oneLine _ (List.mem_cons_of_mem _ hmem))

theorem lines_text (h : table.Regular) : Text.lines table.text = table.lines := by
  have hone : ∀ line ∈ table.lines.map String.ofList, OneLine line := by
    intro line hline
    obtain ⟨written, hwritten, rfl⟩ := List.mem_map.mp hline
    rw [OneLine, String.toList_ofList]
    exact h.newLine_not_mem hwritten
  have hread := lines_flatMap hone []
  simp only [List.flatMap_map, List.map_map, String.toList_ofList, List.append_nil,
    Function.comp_def, List.map_id'] at hread
  exact hread.trans (List.append_nil _)

end Regular

end Table

end ScopeCheck.Text
