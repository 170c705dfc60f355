namespace ScopeCheck.Text

/-- The code points of the blank characters, as closed ranges. -/
def blankRanges : List (Nat × Nat) :=
  [(0x0009, 0x000D), (0x0020, 0x0020), (0x0085, 0x0085), (0x00A0, 0x00A0), (0x1680, 0x1680),
    (0x2000, 0x200A), (0x2028, 0x2029), (0x202F, 0x202F), (0x205F, 0x205F), (0x3000, 0x3000)]

def isBlank (c : Char) : Bool :=
  blankRanges.any fun (low, high) => decide (low ≤ c.toNat ∧ c.toNat ≤ high)

def trimEnd (text : List Char) : List Char := (text.reverse.dropWhile isBlank).reverse

end ScopeCheck.Text
