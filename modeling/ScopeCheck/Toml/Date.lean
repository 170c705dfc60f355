import ScopeCheck.Toml.Scan
import ScopeCheck.Toml.Value

namespace ScopeCheck.Toml

/-- The largest parts that times and offsets may have. No offset goes beyond a day. -/
structure DateLimits where
  hour : Nat
  offsetHour : Nat
  offsetMinute : Nat
  deriving DecidableEq, Repr

namespace DateLimits

def ofDocument : DateLimits := ⟨23, 23, 59⟩

def ofText : DateLimits := ⟨24, 99, 99⟩

end DateLimits

namespace Scan

def numberWithin (count low high : Nat) : Scan Nat := do
  let n := Nat.ofDigitChars 10 (← exactly Char.isDigit count) 0
  if low ≤ n ∧ n ≤ high then return n else failure

def isLeapYear (year : Nat) : Bool := year % 4 = 0 && (year % 100 ≠ 0 || year % 400 = 0)

def daysOf (year month : Nat) : Nat :=
  if month = 2 then if isLeapYear year then 29 else 28
  else if month = 4 ∨ month = 6 ∨ month = 9 ∨ month = 11 then 30
  else 31

def date : Scan Unit := do
  let year ← numberWithin 4 0 9999
  expect '-'
  let month ← numberWithin 2 1 12
  expect '-'
  let _ ← numberWithin 2 1 (daysOf year month)

/-- A minute may have a second more than it should. -/
def time (limits : DateLimits) : Scan Unit := do
  let _ ← numberWithin 2 0 limits.hour
  expect ':'
  let _ ← numberWithin 2 0 59
  expect ':'
  let _ ← numberWithin 2 0 60
  if ← accept '.' then
    match ← takeWhile Char.isDigit with
    | [] => failure
    | _ => return ()

def offset (limits : DateLimits) : Scan Unit := do
  if ← acceptOneOf ['Z', 'z'] then return ()
  if ← acceptOneOf ['+', '-'] then
    let hours ← numberWithin 2 0 limits.offsetHour
    expect ':'
    let minutes ← numberWithin 2 0 limits.offsetMinute
    if 60 * hours + minutes ≤ 24 * 60 then return () else failure

/-- The time behind a date, after a letter or a single blank. -/
def timeOfDate (limits : DateLimits) : Scan Unit := do
  expect 'T' <|> expect 't' <|> expect ' '
  time limits
  offset limits

/-- A date, a date with a time, or a time alone, which has no offset. -/
def moment (limits : DateLimits) : Scan Unit :=
  (do date; timeOfDate limits <|> pure ()) <|> time limits

end Scan

/-- The key of tables that stand for a date. -/
def dateKey : String := "$__toml_private_datetime"

/-- Whether a value is a string that spells a date or a time and nothing else. -/
def Value.isDateText : Value → Bool
  | .string text =>
    match Scan.moment .ofText text.toList with
    | some ((), []) => true
    | _ => false
  | _ => false

/-- A table stands for a date if its first key is `dateKey`. The other keys do not count then. -/
def Entries.standForDate : Entries → Bool
  | (key, _) :: _ => key = dateKey
  | [] => false

mutual

/-- Whether the tables in a value that stand for dates all spell one. -/
def Value.hasDates : Value → Bool
  | .array items => itemsHaveDates items
  | .table _ entries => tableHasDates entries
  | .tables items => tablesHaveDates items
  | _ => true

def itemsHaveDates : List Value → Bool
  | [] => true
  | item :: items => item.hasDates && itemsHaveDates items

def tableHasDates : List (String × Value) → Bool
  | [] => true
  | (key, value) :: entries =>
    if key = dateKey then value.isDateText else value.hasDates && entriesHaveDates entries

def entriesHaveDates : List (String × Value) → Bool
  | [] => true
  | (_, value) :: entries => value.hasDates && entriesHaveDates entries

def tablesHaveDates : List (List (String × Value)) → Bool
  | [] => true
  | table :: tables => tableHasDates table && tablesHaveDates tables

end

end ScopeCheck.Toml
