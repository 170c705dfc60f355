import ScopeCheck.Document.Reader

namespace ScopeCheck

namespace Decimal

theorem toDouble_le (n : Nat) : toDouble n ≤ 2 * n := by
  have hdiv := Nat.div_add_mod n (2 ^ (n.log2 - 52))
  have hmul := Nat.mul_comm (n / 2 ^ (n.log2 - 52)) (2 ^ (n.log2 - 52))
  have hunit : n ≠ 0 → 2 ^ (n.log2 - 52) ≤ n := fun hn =>
    Nat.le_trans (Nat.pow_le_pow_right (by decide) (Nat.sub_le n.log2 52)) (Nat.log2_self_le hn)
  rw [toDouble]
  simp only [Nat.pow_eq]
  split
  · by_cases hn : n = 0
    · subst hn
      rename_i hround
      simp at hround
    · have := hunit hn
      rw [Nat.add_mul]
      omega
  · omega

end Decimal

namespace Json

namespace Number

theorem le_ofDigitChars (digits : List Char) (n : Nat) : n ≤ Nat.ofDigitChars 10 digits n := by
  induction digits generalizing n with
  | nil => exact Nat.le_refl n
  | cons c digits ih =>
    rw [Nat.ofDigitChars_cons]
    exact Nat.le_trans (by omega) (ih _)

/-- Digits of a number that fits in 64 bits are all taken. -/
theorem takeDigits_eq {digits : List Char} {n : Nat}
    (h : Nat.ofDigitChars 10 digits n < UInt64.size) :
    takeDigits n digits = (Nat.ofDigitChars 10 digits n, []) := by
  induction digits generalizing n with
  | nil => rfl
  | cons c digits ih =>
    have hone : Nat.ofDigitChars 10 [c] n = 10 * n + (c.toNat - '0'.toNat) := rfl
    rw [Nat.ofDigitChars_cons] at h ⊢
    simp only [takeDigits, hone]
    rw [if_pos (Nat.lt_of_le_of_lt (le_ofDigitChars digits _) h), ih h]

theorem isFinite_integer (negative : Bool) {whole : Nat} (h : whole < UInt64.size) :
    isFinite ⟨negative, whole, [], none⟩ = true := by
  have hdigits : Nat.ofDigitChars 10 (Nat.toDigits 10 whole) 0 = whole :=
    Nat.ofDigitChars_toDigits (by decide) (by decide)
  have hmagnitude : magnitude ⟨negative, whole, [], none⟩ = ⟨whole, 0⟩ := by
    simp only [magnitude, takeDigits_eq (hdigits.symm ▸ h : _ < UInt64.size), hdigits, takeDigits]
    rfl
  have hround := Decimal.toDouble_le whole
  have hone : Decimal.toDouble (Nat.pow 10 (0 : Int).toNat) = 1 := by decide
  have hsmall : 2 * UInt64.size < Decimal.overflow := by decide +kernel
  rw [isFinite, hmagnitude, Decimal.isFiniteProduct, hone, Bool.or_eq_true, Bool.and_eq_true,
    decide_eq_true_eq, decide_eq_true_eq, decide_eq_true_eq]
  refine .inr ⟨(by decide : (0 : Int) ≤ Decimal.maxPower), ?_⟩
  dsimp only
  omega

end Number

def ofInt (n : Int) : Json := .number ⟨decide (n < 0), n.natAbs, [], none⟩

theorem int?_ofInt (n : Int) : (ofInt n).int? = some n := by
  cases n with
  | ofNat n =>
    have hsign : decide ((n : Int) < 0) = false := decide_eq_false (by omega)
    simp [ofInt, int?, hsign, Number.toInt?]
  | negSucc n =>
    have hsign : decide (Int.negSucc n < 0) = true := decide_eq_true (Int.negSucc_lt_zero n)
    have habs : (Int.negSucc n).natAbs = n + 1 := rfl
    simp only [ofInt, int?, hsign, habs, Number.toInt?]
    rfl

theorem int64?_ofInt (value : Int64) : (ofInt value.toInt).int64? = some value := by
  have hrange : Int64.minValue.toInt ≤ value.toInt ∧ value.toInt ≤ Int64.maxValue.toInt :=
    ⟨Int64.minValue_le_toInt value, Int64.toInt_le value⟩
  simp only [int64?, int?_ofInt, Option.bind_eq_bind, Option.bind_some, if_pos hrange,
    Int64.ofInt_toInt]

end Json

end ScopeCheck
