import Marginalia.Decimal.Binary64

/-!
# Precedences

How tightly an operator binds is told by a whole number of the format of 64 bits: one whose
significand has at most 53 bits. One more than a precedence is that sum as the format has it,
the nearest number there is. So it is a greater precedence below 2 ^ 53, and may be the same one
from there on.
-/

namespace Marginalia

namespace Binary64

/-- A power of two: the whole numbers of the format that are about as great as a given one are its
multiples. -/
def wholeUnit (n : Nat) : Nat := Nat.pow 2 (n.log2 - 52)

/-- The format has a number: its significand has at most 53 bits. The bound of the exponent, far
above, is left aside; no sum of a number below it and one goes beyond. -/
def HasWhole (n : Nat) : Prop := wholeUnit n ∣ n

instance (n : Nat) : Decidable (HasWhole n) := inferInstanceAs (Decidable (_ ∣ _))

/-- The nearest whole number that the format has, of two equally near ones that with the even
significand. -/
def roundWhole (n : Nat) : Nat := roundQuotient n (wholeUnit n) * wholeUnit n

/-- There is a unit for every number. -/
theorem wholeUnit_pos (n : Nat) : 0 < wholeUnit n := Nat.two_pow_pos _

/-- A quotient is rounded to one of its two neighbours. -/
theorem roundQuotient_mem (numerator denominator : Nat) :
    roundQuotient numerator denominator = numerator / denominator ∨
      roundQuotient numerator denominator = numerator / denominator + 1 := by
  rw [roundQuotient]
  split
  · exact .inr rfl
  · exact .inl rfl

/-- A whole quotient is not rounded. -/
theorem roundQuotient_mul (quotient : Nat) {denominator : Nat} (positive : 0 < denominator) :
    roundQuotient (quotient * denominator) denominator = quotient := by
  have whole : quotient * denominator / denominator = quotient := Nat.mul_div_cancel _ positive
  rw [roundQuotient, whole, Nat.mul_mod_left]
  exact if_neg (by omega)

/-- Numbers with no fewer bits have multiples of the unit for their own. -/
theorem wholeUnit_dvd {m n : Nat} (le : m.log2 ≤ n.log2) : wholeUnit m ∣ wholeUnit n :=
  Nat.pow_dvd_pow 2 (Nat.sub_le_sub_right le 52)

/-- Below 2 ^ 53 the format has every whole number. -/
theorem wholeUnit_eq_one {n : Nat} (small : n < 2 * hiddenBit) : wholeUnit n = 1 := by
  have none : n.log2 - 52 = 0 := by
    by_cases zero : n = 0
    · subst zero
      decide
    · have below : n.log2 < 53 := (Nat.log2_lt zero).mpr small
      omega
  rw [wholeUnit, none]

/-- Numbers that the format has below 2 ^ 53 are not rounded. -/
theorem roundWhole_small {n : Nat} (small : n < 2 * hiddenBit) : roundWhole n = n := by
  have whole := roundQuotient_mul n Nat.one_pos
  rw [Nat.mul_one] at whole
  rw [roundWhole, wholeUnit_eq_one small, whole, Nat.mul_one]

/-- From 2 ^ 53 on a significand goes from 2 ^ 52 up to 2 ^ 53. -/
theorem significand_bounds {n : Nat} (big : 2 * hiddenBit ≤ n) :
    Nat.pow 2 n.log2 = hiddenBit * wholeUnit n ∧ hiddenBit ≤ n / wholeUnit n ∧
      n / wholeUnit n < 2 * hiddenBit := by
  have positive : n ≠ 0 := by
    have some : 0 < hiddenBit := by decide
    omega
  have bits : 53 ≤ n.log2 := (Nat.le_log2 positive).mpr big
  have split : n.log2 = 52 + (n.log2 - 52) := by omega
  have first : Nat.pow 2 n.log2 = hiddenBit * wholeUnit n :=
    (congrArg (Nat.pow 2) split).trans (Nat.pow_add 2 52 (n.log2 - 52))
  have lower : Nat.pow 2 n.log2 ≤ n := Nat.log2_self_le positive
  have upper : n < Nat.pow 2 n.log2 * 2 := Nat.lt_log2_self
  rw [first] at lower upper
  have atLeast : hiddenBit ≤ n / wholeUnit n :=
    (Nat.le_div_iff_mul_le (wholeUnit_pos n)).mpr lower
  have below : n / wholeUnit n < 2 * hiddenBit := by
    rw [Nat.div_lt_iff_lt_mul (wholeUnit_pos n), Nat.mul_assoc, Nat.mul_comm]
    exact upper
  exact ⟨first, atLeast, below⟩

/-- What is rounded is one of the numbers of the format. -/
theorem hasWhole_roundWhole (n : Nat) : HasWhole (roundWhole n) := by
  by_cases small : n < 2 * hiddenBit
  · rw [HasWhole, roundWhole_small small, wholeUnit_eq_one small]
    exact Nat.one_dvd n
  · obtain ⟨first, -, below⟩ := significand_bounds (Nat.not_lt.mp small)
    have next : Nat.pow 2 (n.log2 + 1) = 2 * hiddenBit * wholeUnit n := by
      rw [Nat.mul_assoc, ← first, Nat.mul_comm]
      exact Nat.pow_succ 2 n.log2
    have significand : roundQuotient n (wholeUnit n) ≤ 2 * hiddenBit := by
      rcases roundQuotient_mem n (wholeUnit n) with rounded | rounded <;> omega
    have least : roundWhole n ≤ Nat.pow 2 (n.log2 + 1) := by
      rw [next]
      exact Nat.mul_le_mul_right _ significand
    -- The significand may become 2 ^ 53, and then the number is a power of two.
    by_cases carried : roundWhole n = Nat.pow 2 (n.log2 + 1)
    · have bits : (roundWhole n).log2 = n.log2 + 1 := by
        rw [carried]
        exact Nat.log2_two_pow
      rw [HasWhole, wholeUnit, bits, carried]
      exact Nat.pow_dvd_pow 2 (Nat.sub_le _ _)
    · have bits : (roundWhole n).log2 ≤ n.log2 := by
        by_cases zero : roundWhole n = 0
        · rw [zero]
          exact Nat.zero_le _
        · have fewer : (roundWhole n).log2 < n.log2 + 1 :=
            (Nat.log2_lt zero).mpr (Nat.lt_of_le_of_ne least carried)
          omega
      exact Nat.dvd_trans (wholeUnit_dvd bits) (Nat.dvd_mul_left _ _)

end Binary64

/-- A precedence: a whole number of the format of 64 bits. -/
structure Precedence where
  /-- The number. -/
  value : Int
  /-- The format has it. -/
  whole : Binary64.HasWhole value.natAbs
deriving DecidableEq, Repr

namespace Precedence

/-- The precedence nearest to a whole number. -/
def ofInt (n : Int) : Precedence :=
  ⟨n.sign * Binary64.roundWhole n.natAbs, by
    rw [Int.natAbs_mul, Int.natAbs_natCast]
    by_cases zero : n = 0
    · subst zero
      decide
    · rw [Int.natAbs_sign_of_ne_zero zero, Nat.one_mul]
      exact Binary64.hasWhole_roundWhole _⟩

instance : IntCast Precedence := ⟨ofInt⟩

instance : NatCast Precedence := ⟨fun n => ofInt n⟩

instance (n : Nat) : OfNat Precedence n := ⟨ofInt n⟩

instance : Inhabited Precedence := ⟨0⟩

instance : Coe Precedence Int := ⟨value⟩

instance (priority := 2000) : LT Precedence := ⟨fun p q => p.value < q.value⟩

instance (priority := 2000) : LE Precedence := ⟨fun p q => p.value ≤ q.value⟩

instance (p q : Precedence) : Decidable (p < q) := inferInstanceAs (Decidable (p.value < q.value))

instance (p q : Precedence) : Decidable (p ≤ q) := inferInstanceAs (Decidable (p.value ≤ q.value))

/-- One more, as the format has it. -/
def plusOne (p : Precedence) : Precedence := ofInt (p.value + 1)

/-- The decimal with the fewest digits that reads as the number. -/
def decimal (p : Precedence) : Decimal :=
  { (Binary64.ofRatio p.value.natAbs 1).shortest with negative := p.value < 0 }

/-- The text of a precedence. -/
def text (p : Precedence) : Text := p.decimal.render

end Precedence

end Marginalia
