namespace ScopeCheck.Toml

/-- How a table came about: written in braces, opened by a header, needed on the way of a longer
header, or needed on the way of a dotted key. -/
inductive TableForm where
  | inline
  | header
  | implied
  | dotted
  deriving DecidableEq, Repr, Inhabited

/-- Floats and dates are kept as they are written. `tables` are the tables that headers in double
brackets open one after the other. -/
inductive Value where
  | string (value : String)
  | integer (value : Int)
  | float (spelling : String)
  | boolean (value : Bool)
  | dateTime (spelling : String)
  | array (items : List Value)
  | table (form : TableForm) (entries : List (String × Value))
  | tables (items : List (List (String × Value)))
  deriving Repr, Inhabited

/-- The entries of a table in the order they are given. No key comes twice. -/
abbrev Entries := List (String × Value)

namespace Entries

def get? (entries : Entries) (key : String) : Option Value := entries.lookup key

def keys (entries : Entries) : List String := entries.map (·.1)

/-- Gives a key that is there another value. -/
def replace (entries : Entries) (key : String) (value : Value) : Entries :=
  entries.map fun entry => if entry.1 = key then (key, value) else entry

def erase (entries : Entries) (key : String) : Entries := entries.filter (·.1 ≠ key)

def add (entries : Entries) (key : String) (value : Value) : Entries := entries ++ [(key, value)]

end Entries

end ScopeCheck.Toml
