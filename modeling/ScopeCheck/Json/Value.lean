import ScopeCheck.Decimal

namespace ScopeCheck

namespace Json

/-- What the characters and escapes of a string spell. A string with half of a surrogate pair is
written correctly but spells no text. -/
inductive Literal where
  | text (value : String)
  | halfPair
  deriving DecidableEq, Repr, Inhabited

/-- A number as written. `fraction` holds the digits behind the point and is empty without one. -/
structure Number where
  negative : Bool
  whole : Nat
  fraction : List Char
  exponent : Option Int
  deriving DecidableEq, Repr, Inhabited

namespace Number

def ofNat (n : Nat) : Number := ⟨false, n, [], none⟩

/-- The integer a number spells. A point or an exponent makes it no integer, and neither is a
negative zero. -/
def toInt? : Number → Option Int
  | ⟨false, whole, [], none⟩ => some whole
  | ⟨true, whole + 1, [], none⟩ => some (-(whole + 1 : Nat))
  | _ => none

/-- Adds digits to a significand as long as it fits in 64 bits. Gives the digits that are left. -/
def takeDigits : Nat → List Char → Nat × List Char
  | significand, [] => (significand, [])
  | significand, c :: rest =>
    let longer := Nat.ofDigitChars 10 [c] significand
    if longer < UInt64.size then takeDigits longer rest else (significand, c :: rest)

/-- The magnitude of a number, with a significand of 64 bits. Digits that it has no room for are
dropped: one before the point counts for a power of ten, one behind it for nothing. The digits
behind the point are tried even where digits before it are dropped. -/
def magnitude (number : Number) : Decimal :=
  let (whole, droppedWhole) := takeDigits 0 (Nat.toDigits 10 number.whole)
  let (significand, dropped) := takeDigits whole number.fraction
  ⟨significand,
    number.exponent.getD 0 + droppedWhole.length - (number.fraction.length - dropped.length : Nat)⟩

/-- Whether a number stays finite when its magnitude is worked out in doubles. -/
def isFinite (number : Number) : Bool := number.magnitude.isFiniteProduct

end Number

end Json

/-- A value as its text gives it. An object keeps every member in order, repeated names included. -/
inductive Json where
  | null
  | boolean (value : Bool)
  | number (value : Json.Number)
  | string (value : Json.Literal)
  | array (items : List Json)
  | object (members : List (Json.Literal × Json))
  deriving Repr, Inhabited

namespace Json

def ofText (value : String) : Json := .string (.text value)

def ofNat (value : Nat) : Json := .number (.ofNat value)

def ofMembers (members : List (String × Json)) : Json :=
  .object (members.map fun (name, value) => (.text name, value))

def text? : Json → Option String
  | .string (.text value) => some value
  | _ => none

def int? : Json → Option Int
  | .number value => value.toInt?
  | _ => none

/-- An integer from 0 up to `bound`, which is left out. -/
def natBelow? (bound : Nat) (value : Json) : Option Nat := do
  let n ← value.int?
  if 0 ≤ n ∧ n < bound then some n.toNat else none

end Json

end ScopeCheck
