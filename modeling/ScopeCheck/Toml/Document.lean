import ScopeCheck.Toml.Line

namespace ScopeCheck.Toml

namespace Entries

/-- Does something to the entries of the table that a header names, or of the last one under a
header in double brackets. -/
def modifyAt (change : Entries → Option Entries) : List String → Entries → Option Entries
  | [], entries => change entries
  | name :: path, entries =>
    match entries.get? name with
    | some (.table form inner) => do
      return entries.replace name (.table form (← modifyAt change path inner))
    | some (.tables items) => do
      let last ← items.getLast?
      return entries.replace name (.tables (items.dropLast ++ [← modifyAt change path last]))
    | _ => none

/-- Opens a table where it is named. One that a longer header has implied is opened once, and goes
behind the other entries; no other table is there already. -/
def openTable (entries : Entries) (name : String) : Option Entries :=
  match entries.get? name with
  | none => some (entries.add name (.table .header []))
  | some (.table .implied inner) => some ((entries.erase name).add name (.table .header inner))
  | some _ => none

/-- Opens the next of the tables under a header in double brackets. -/
def openNextTable (entries : Entries) (name : String) : Option Entries :=
  match entries.get? name with
  | none => some (entries.add name (.tables [[]]))
  | some (.tables items) => some (entries.replace name (.tables (items ++ [[]])))
  | some _ => none

/-- Goes to the table that holds the last name of a header, and makes those that are missing on the
way. A table in braces cannot be entered. -/
def openAt (here : Entries → String → Option Entries) : List String → Entries → Option Entries
  | [], _ => none
  | [name], entries => here entries name
  | name :: path, entries =>
    match entries.get? name with
    | none => do return entries.add name (.table .implied (← openAt here path []))
    | some (.table .inline _) => none
    | some (.table form inner) => do
      return entries.replace name (.table form (← openAt here path inner))
    | some (.tables items) => do
      let last ← items.getLast?
      return entries.replace name (.tables (items.dropLast ++ [← openAt here path last]))
    | some _ => none

/-- Takes in the lines below the header `current`, and what follows. -/
def ofLines (current : List String) : List Line → Entries → Option Entries
  | [], entries => some entries
  | .pair pair :: rest, entries => do
    ofLines current rest (← modifyAt (insertPair · pair) current entries)
  | .header path :: rest, entries => do
    ofLines path rest (← openAt openTable path entries)
  | .arrayHeader path :: rest, entries => do
    ofLines path rest (← openAt openNextTable path entries)

end Entries

def parse? (text : List Char) : Option Entries := do
  let (lines, _) ← Scan.lines text
  Entries.ofLines [] lines []

end ScopeCheck.Toml
