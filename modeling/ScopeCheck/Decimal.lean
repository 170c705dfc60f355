namespace ScopeCheck

/-- The magnitude `significand * 10 ^ scale`. -/
structure Decimal where
  significand : Nat
  scale : Int
  deriving DecidableEq, Repr, Inhabited

namespace Decimal

def ofDigits (whole fraction : List Char) (power : Int) : Decimal :=
  ⟨Nat.ofDigitChars 10 (whole ++ fraction) 0, power - fraction.length⟩

/-- The least magnitude that rounds to no finite double: half a unit above the largest one. -/
def overflow : Nat := Nat.pow 2 1024 - Nat.pow 2 970

/-- Whether a magnitude is below `overflow`. It is only worked out where the number of its digits
leaves the question open, so a huge power costs nothing. -/
def isFinite (decimal : Decimal) : Bool :=
  let length : Int := (Nat.toDigits 10 decimal.significand).length
  if decimal.significand = 0 then true
  else if length + decimal.scale < 300 then true
  else if 310 < length + decimal.scale then false
  else if decimal.scale < 0 then
    decide (decimal.significand < overflow * Nat.pow 10 decimal.scale.natAbs)
  else decide (decimal.significand * Nat.pow 10 decimal.scale.natAbs < overflow)

/-- The double nearest to an integer, as an integer: 53 leading binary digits are kept, and a tie
goes to the even neighbour. It has no upper end. -/
def toDouble (n : Nat) : Nat :=
  let unit := Nat.pow 2 (n.log2 - 52)
  let (kept, left) := (n / unit, n % unit)
  if unit < 2 * left ∨ (2 * left = unit ∧ kept % 2 = 1) then (kept + 1) * unit else kept * unit

/-- The greatest power of ten that is a finite double. -/
def maxPower : Int := 308

/-- Whether a magnitude is finite when doubles work it out: the significand and the power of ten are
rounded first, and their product is rounded again. Dividing by a power of ten never goes above
the significand. -/
def isFiniteProduct (decimal : Decimal) : Bool :=
  decide (decimal.significand = 0) ||
    (decide (decimal.scale ≤ maxPower) &&
      decide (toDouble decimal.significand * toDouble (Nat.pow 10 decimal.scale.toNat) < overflow))

end Decimal

end ScopeCheck
