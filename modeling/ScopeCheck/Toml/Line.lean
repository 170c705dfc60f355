import ScopeCheck.Toml.Number
import ScopeCheck.Toml.Text

namespace ScopeCheck.Toml

/-- A dotted key leads through the tables of `path`. -/
structure Pair where
  path : List String
  key : String
  value : Value
  deriving Repr, Inhabited

namespace Entries

/-- Adds a value below the tables that a dotted key leads through. It makes the tables that are
missing, and passes only through tables that such keys or longer headers have made; the last of
them must be made by dotted keys. -/
def insert (key : String) (value : Value) : List String → Entries → Option Entries
  | [], entries => if (entries.get? key).isSome then none else some (entries.add key value)
  | name :: path, entries =>
    match entries.get? name with
    | none => do
      let inner ← insert key value path []
      return entries.add name (.table .dotted inner)
    | some (.table form inner) =>
      if form = .dotted ∨ (form = .implied ∧ path ≠ []) then do
        let inner ← insert key value path inner
        return entries.replace name (.table form inner)
      else none
    | some (.tables items) =>
      match path, items.getLast? with
      | _ :: _, some last => do
        let last ← insert key value path last
        return entries.replace name (.tables (items.dropLast ++ [last]))
      | _, _ => none
    | some _ => none

def insertPair (entries : Entries) (pair : Pair) : Option Entries :=
  insert pair.key pair.value pair.path entries

end Entries

namespace Scan

def pair (value : Scan Value) : Scan Pair := do
  let key ← key
  expect '='
  blanks
  let value ← value
  match key.getLast? with
  | none => failure
  | some last => return ⟨key.dropLast, last, value⟩

/-- The items of an array behind its opening bracket or a comma. A comma may stand behind the last
item. -/
def arrayItems (value : Scan Value) : Nat → Scan (List Value)
  | 0 => failure
  | fuel + 1 => do
    trivia
    if ← accept ']' then return []
    let item ← value
    trivia
    if ← accept ',' then return item :: (← arrayItems value fuel)
    expect ']'
    return [item]

/-- The pairs of a table in braces, all on one line and with no comma behind the last one. -/
def inlinePairs (value : Scan Value) : Nat → Scan (List Pair)
  | 0 => failure
  | fuel + 1 => do
    let first ← pair value
    blanks
    if ← accept ',' then return first :: (← inlinePairs value fuel)
    expect '\x7d'
    return [first]

def inlineTable (value : Scan Value) : Scan Value := do
  blanks
  if ← accept '\x7d' then return .table .inline []
  let pairs ← inlinePairs value (← ahead).length
  match pairs.foldlM Entries.insertPair [] with
  | none => failure
  | some entries => return .table .inline entries

/-- Values that hold no others. -/
def scalar : Scan Value := do
  match ← ahead with
  | '"' :: _ | '\'' :: _ => return .string (← string)
  | 't' :: _ => word "true".toList; return .boolean true
  | 'f' :: _ => word "false".toList; return .boolean false
  | _ => number

/-- A value in which arrays and tables nest at most `depth` deep. -/
def value : Nat → Scan Value
  | 0 => scalar
  | depth + 1 => do
    match ← ahead with
    | '[' :: rest => expect '['; return .array (← arrayItems (value depth) (rest.length + 1))
    | '\x7b' :: _ => expect '\x7b'; inlineTable (value depth)
    | _ => scalar

end Scan

inductive Line where
  | pair (pair : Pair)
  | header (path : List String)
  | arrayHeader (path : List String)
  deriving Repr, Inhabited

namespace Scan

/-- A header: a key between brackets, single or double. -/
def header : Scan Line := do
  expect '['
  if ← accept '[' then
    let path ← key
    word "]]".toList
    return .arrayHeader path
  else
    let path ← key
    expect ']'
    return .header path

def linesUpTo : Nat → Scan (List Line)
  | 0 => failure
  | fuel + 1 => do
    blanks
    match ← ahead with
    | [] => return []
    | '#' :: _ => comment; lineEnd; linesUpTo fuel
    | '\n' :: _ | '\r' :: _ => newLine; linesUpTo fuel
    | '[' :: _ =>
      let line ← header
      lineRest
      return line :: (← linesUpTo fuel)
    | _ =>
      let pair ← pair (value maxDepth)
      lineRest
      return .pair pair :: (← linesUpTo fuel)

/-- All lines of a text. A byte order mark at its front is passed over. -/
def lines : Scan (List Line) := do
  let _ ← accept '\ufeff'
  linesUpTo ((← ahead).length + 1)

end Scan

end ScopeCheck.Toml
