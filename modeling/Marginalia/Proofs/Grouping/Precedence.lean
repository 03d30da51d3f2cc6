import Marginalia.Fixity.Precedence
import Mathlib.Order.Defs.LinearOrder
import Mathlib.Tactic.Order

/-!
# The order of precedences

Precedences are ordered as the numbers that they are. Rounding never carries a number past one that
the format has, so one more than a precedence is no less than it, and no more than any precedence
above it. Whether it is above it itself depends on the precedence; from -2 ^ 53 up to 2 ^ 53 it is.
-/

namespace Marginalia

namespace Binary64

variable {m n : Nat}

/-- What is no less than a number, and of the format, is no less than the rounded number. -/
theorem roundWhole_le (has : HasWhole m) (le : n ≤ m) : roundWhole n ≤ m := by
  by_cases zero : n = 0
  · subst zero
    exact Nat.zero_le m
  have bits : n.log2 ≤ m.log2 :=
    (Nat.le_log2 (by omega)).mpr (Nat.le_trans (Nat.log2_self_le zero) le)
  obtain ⟨count, rfl⟩ := Nat.dvd_trans (wholeUnit_dvd bits) has
  have quotient : n / wholeUnit n ≤ count := Nat.div_le_of_le_mul le
  rw [roundWhole, Nat.mul_comm]
  refine Nat.mul_le_mul_left _ ?_
  by_cases last : n / wholeUnit n = count
  · -- The number is the greater one itself, and is not rounded.
    have above := Nat.div_mul_le_self n (wholeUnit n)
    rw [last, Nat.mul_comm] at above
    have same : n = count * wholeUnit n := by
      rw [Nat.mul_comm]
      exact Nat.le_antisymm le above
    have unrounded := roundQuotient_mul count (wholeUnit_pos n)
    rw [← same] at unrounded
    exact Nat.le_of_eq unrounded
  · rcases roundQuotient_mem n (wholeUnit n) with rounded | rounded <;> omega

/-- What is no greater than a number, and of the format, is no greater than the rounded number. -/
theorem le_roundWhole (has : HasWhole m) (le : m ≤ n) : m ≤ roundWhole n := by
  by_cases small : n < 2 * hiddenBit
  · rw [roundWhole_small small]
    exact le
  have atLeast : n / wholeUnit n * wholeUnit n ≤ roundWhole n := by
    refine Nat.mul_le_mul_right _ ?_
    rcases roundQuotient_mem n (wholeUnit n) with rounded | rounded <;> omega
  by_cases bits : n.log2 ≤ m.log2
  · obtain ⟨count, rfl⟩ := Nat.dvd_trans (wholeUnit_dvd bits) has
    have quotient : count ≤ n / wholeUnit n := by
      rw [Nat.le_div_iff_mul_le (wholeUnit_pos n), Nat.mul_comm]
      exact le
    calc wholeUnit n * count
      _ ≤ wholeUnit n * (n / wholeUnit n) := Nat.mul_le_mul_left _ quotient
      _ = n / wholeUnit n * wholeUnit n := Nat.mul_comm _ _
      _ ≤ roundWhole n := atLeast
  · -- The smaller number has fewer bits, and the greater one does not lose its first.
    obtain ⟨first, significand, -⟩ := significand_bounds (Nat.not_lt.mp small)
    have below : m < Nat.pow 2 n.log2 := by
      by_cases zero : m = 0
      · rw [zero]
        exact Nat.two_pow_pos _
      · exact (Nat.log2_lt zero).mp (Nat.not_le.mp bits)
    calc m
      _ ≤ hiddenBit * wholeUnit n := Nat.le_of_lt (first ▸ below)
      _ ≤ n / wholeUnit n * wholeUnit n := Nat.mul_le_mul_right _ significand
      _ ≤ roundWhole n := atLeast

end Binary64

namespace Precedence

variable {p q : Precedence} {n : Int}

/-- Precedences with one number are the same. -/
theorem eq_of_value_eq (same : p.value = q.value) : p = q := by
  cases p
  cases q
  cases same
  rfl

instance : LinearOrder Precedence where
  le_refl p := Int.le_refl p.value
  le_trans _ _ _ first second := Int.le_trans first second
  le_antisymm _ _ below above := eq_of_value_eq (Int.le_antisymm below above)
  le_total p q := Int.le_total p.value q.value
  lt_iff_le_not_ge _ _ := Int.lt_iff_le_and_not_ge
  toDecidableLE := inferInstance
  toDecidableEq := inferInstance
  toDecidableLT := inferInstance

/-- The number nearest to a whole one has its sign. -/
theorem value_ofInt (n : Int) :
    (ofInt n).value = if n < 0 then -(Binary64.roundWhole n.natAbs : Int)
      else Binary64.roundWhole n.natAbs := by
  by_cases negative : n < 0
  · rw [if_pos negative]
    simp [ofInt, Int.sign_eq_neg_one_of_neg negative]
  · rw [if_neg negative]
    by_cases zero : n = 0
    · subst zero
      rfl
    · simp [ofInt, Int.sign_eq_one_of_pos (by omega : 0 < n)]

/-- Rounding does not carry a whole number above a precedence. -/
theorem ofInt_le (le : n ≤ p.value) : ofInt n ≤ p := by
  show (ofInt n).value ≤ p.value
  rw [value_ofInt]
  by_cases negative : n < 0
  · rw [if_pos negative]
    by_cases below : p.value < 0
    · have rounded := Binary64.le_roundWhole p.whole (by omega : p.value.natAbs ≤ n.natAbs)
      omega
    · omega
  · rw [if_neg negative]
    have rounded := Binary64.roundWhole_le p.whole (by omega : n.natAbs ≤ p.value.natAbs)
    omega

/-- Rounding does not carry a whole number below a precedence. -/
theorem le_ofInt (le : p.value ≤ n) : p ≤ ofInt n := by
  show p.value ≤ (ofInt n).value
  rw [value_ofInt]
  by_cases negative : n < 0
  · rw [if_pos negative]
    have rounded := Binary64.roundWhole_le p.whole (by omega : n.natAbs ≤ p.value.natAbs)
    omega
  · rw [if_neg negative]
    by_cases below : p.value < 0
    · omega
    · have rounded := Binary64.le_roundWhole p.whole (by omega : p.value.natAbs ≤ n.natAbs)
      omega

/-- One more than a precedence is no less. -/
theorem le_plusOne (p : Precedence) : p ≤ p.plusOne := le_ofInt (by omega)

/-- One more than a precedence is no more than any one above it. -/
theorem plusOne_le (above : p < q) : p.plusOne ≤ q := by
  have next : p.value + 1 ≤ q.value := above
  exact ofInt_le next

/-- The whole numbers from -2 ^ 53 to 2 ^ 53 are precedences. -/
theorem value_ofInt_small (small : n.natAbs ≤ 2 * Binary64.hiddenBit) : (ofInt n).value = n := by
  have rounded : Binary64.roundWhole n.natAbs = n.natAbs := by
    by_cases last : n.natAbs = 2 * Binary64.hiddenBit
    · rw [last]
      decide
    · exact Binary64.roundWhole_small (by omega)
  rw [value_ofInt, rounded]
  omega

/-- One more than a precedence from -2 ^ 53 up to 2 ^ 53 is greater. -/
theorem lt_plusOne (low : -(2 * Binary64.hiddenBit : Nat) ≤ p.value)
    (high : p.value < (2 * Binary64.hiddenBit : Nat)) : p < p.plusOne := by
  have raised : p.plusOne.value = p.value + 1 := value_ofInt_small (by omega)
  show p.value < p.plusOne.value
  omega

example : Precedence.plusOne 9007199254740992 = 9007199254740992 := by decide

end Precedence

end Marginalia
