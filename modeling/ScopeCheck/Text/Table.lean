import ScopeCheck.Text.Blank

namespace ScopeCheck.Text

/-- A column is as wide as its longest cell measured in bytes of UTF-8, but its cells are filled up to
that number of characters: a cell with wider characters gets more blanks than it needs. -/
structure Table where
  header : List String
  rows : List (List String)
  deriving DecidableEq, Repr, Inhabited

namespace Table

def widen (widths : List Nat) (cells : List String) : List Nat :=
  List.zipWith (fun width cell => max width cell.utf8ByteSize) widths cells

def widths (table : Table) : List Nat :=
  table.rows.foldl widen (table.header.map String.utf8ByteSize)

def pad (width : Nat) (cell : String) : List Char :=
  cell.toList ++ List.replicate (width - cell.length) ' '

/-- The cells of a line, each with its width. Two blanks part the columns; the last cell is not
filled up. -/
def joinCells : List (String × Nat) → List Char
  | [] => []
  | [(cell, _)] => cell.toList
  | (cell, width) :: rest => pad width cell ++ [' ', ' '] ++ joinCells rest

def line (widths : List Nat) (cells : List String) : List Char :=
  trimEnd (joinCells (cells.zip widths))

def rule (widths : List Nat) : List String :=
  widths.map fun width => String.ofList (List.replicate width '-')

def lines (table : Table) : List (List Char) :=
  let widths := table.widths
  (table.header :: rule widths :: table.rows).map (line widths)

def text (table : Table) : List Char := table.lines.flatMap (· ++ ['\n'])

end Table

end ScopeCheck.Text
