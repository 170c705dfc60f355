import ScopeCheck.Decimal
import ScopeCheck.Text.Hex
import ScopeCheck.Toml.Date

namespace ScopeCheck.Toml

namespace Scan

/-- Digits, between which single underscores may stand. The underscores are left out. -/
def digitsFrom (isDigit : Char → Bool) : List Char → List Char × List Char
  | '_' :: c :: rest =>
    if isDigit c then
      let (digits, rest) := digitsFrom isDigit rest
      (c :: digits, rest)
    else ([], '_' :: c :: rest)
  | c :: rest =>
    if isDigit c then
      let (digits, rest) := digitsFrom isDigit rest
      (c :: digits, rest)
    else ([], c :: rest)
  | [] => ([], [])

def digits (isDigit : Char → Bool) : Scan (List Char)
  | c :: rest => if isDigit c then some (digitsFrom isDigit (c :: rest)) else none
  | [] => none

def sign : Scan Bool
  | '+' :: rest => some (false, rest)
  | '-' :: rest => some (true, rest)
  | text => some (false, text)

def isOctal (c : Char) : Bool := decide ('0' ≤ c ∧ c ≤ '7')

def isBinary (c : Char) : Bool := c = '0' || c = '1'

def isHex (c : Char) : Bool := (Text.hexDigit? c).isSome

/-- Integers have 64 bits. -/
def integerOf (n : Int) : Scan Value :=
  if Int64.minValue.toInt ≤ n ∧ n ≤ Int64.maxValue.toInt then pure (.integer n) else failure

def radixInteger (letter : Char) (base : Nat) (isDigit : Char → Bool) : Scan Value := do
  expect '0'
  expect letter
  let ds ← digits isDigit
  integerOf (ds.foldl (fun n c => base * n + (Text.hexDigit? c).getD 0) 0 : Nat)

/-- The digits before the point: a zero stands alone. -/
def wholeDigits : Scan (List Char)
  | '0' :: rest => some (['0'], rest)
  | text => digits Char.isDigit text

def fraction : Scan (Option (List Char)) := do
  if ← accept '.' then return some (← digits Char.isDigit) else return none

def power : Scan (Option Int) := do
  if ← acceptOneOf ['e', 'E'] then
    let negative ← sign
    let n := Nat.ofDigitChars 10 (← digits Char.isDigit) 0
    return some (if negative then -n else n)
  else return none

/-- An integer, or a float if there is a point or a power. A float above the range of doubles is
refused, one below it is taken for the infinity that it rounds to. -/
def decimal : Scan Value := do
  let ((negative, whole, fraction, power), spelling) ← spelled do
    let negative ← sign
    let whole ← wholeDigits
    let fraction ← fraction
    let power ← power
    return (negative, whole, fraction, power)
  match fraction, power with
  | none, none =>
    let n : Int := Nat.ofDigitChars 10 whole 0
    integerOf (if negative then -n else n)
  | fraction, power =>
    if negative || (Decimal.ofDigits whole (fraction.getD []) (power.getD 0)).isFinite then
      return .float (String.ofList spelling)
    else failure

/-- The floats that are written in letters. -/
def specialFloat : Scan Value := do
  let (_, spelling) ← spelled do
    let _ ← sign
    word "inf".toList <|> word "nan".toList
  return .float (String.ofList spelling)

def dateTime : Scan Value := do
  let (_, spelling) ← spelled (moment .ofDocument)
  return .dateTime (String.ofList spelling)

def number : Scan Value :=
  dateTime <|> specialFloat <|> radixInteger 'x' 16 isHex <|> radixInteger 'o' 8 isOctal
    <|> radixInteger 'b' 2 isBinary <|> decimal

end Scan

end ScopeCheck.Toml
