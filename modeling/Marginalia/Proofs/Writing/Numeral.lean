import Marginalia.Proofs.Scan.Numeral
import Marginalia.Proofs.Writing.Piece

/-!
# Writing numbers

The digits of a number in base ten, and its digits in base sixteen behind their mark, are tokens
that stand for the number.
-/

namespace Marginalia

/-! ## Digits -/

/-- The unit of a digit. -/
def CodeUnit.ofDigit (digit : Nat) : CodeUnit := .ofChar digit.digitChar

/-- The digits of a number in a base. -/
def Text.inBase (base n : Nat) : Text := ofChars (Nat.toDigits base n)

/-- A digit takes one unit. -/
theorem Text.ofChar_digitChar :
    ∀ digit < 16, Text.ofChar digit.digitChar = [CodeUnit.ofDigit digit] := by decide

/-- The unit of a digit is a hexadecimal digit with its value. -/
theorem CodeUnit.ofDigit_spec :
    ∀ digit < 16, (ofDigit digit).isHexDigit = true ∧ (ofDigit digit).digitValue = digit := by
  decide

/-- The unit of a digit below ten is a decimal digit. -/
theorem CodeUnit.isDigit_ofDigit : ∀ digit < 10, (ofDigit digit).isDigit = true := by decide

section Digits

variable {base : Nat} (two : 1 < base) (sixteen : base ≤ 16)

include sixteen

/-- A number below the base is one digit. -/
theorem Text.inBase_of_lt {n : Nat} (small : n < base) : inBase base n = [CodeUnit.ofDigit n] := by
  rw [inBase, Nat.toDigits_of_lt_base small, ofChars, List.flatMap_singleton,
    ofChar_digitChar n (by omega)]

include two

/-- The last digit of a number stands behind the others. -/
theorem Text.inBase_of_le {n : Nat} (large : base ≤ n) :
    inBase base n = inBase base (n / base) ++ [CodeUnit.ofDigit (n % base)] := by
  have digit : n % base < base := Nat.mod_lt n (by omega)
  rw [inBase, Nat.toDigits_of_base_le two large, ofChars, List.flatMap_append,
    List.flatMap_singleton, ofChar_digitChar _ (by omega)]
  rfl

/-- The digits of a number are digits of the base. -/
theorem Text.mem_inBase (n : Nat) :
    ∀ u ∈ inBase base n, ∃ digit < base, u = CodeUnit.ofDigit digit := by
  induction n using Nat.strongRecOn with
  | _ n ih =>
    intro u member
    by_cases small : n < base
    · rw [inBase_of_lt sixteen small] at member
      exact ⟨n, small, List.mem_singleton.mp member⟩
    · rw [inBase_of_le two sixteen (by omega)] at member
      rcases List.mem_append.mp member with inFront | isLast
      · exact ih (n / base) (Nat.div_lt_self (by omega) two) u inFront
      · exact ⟨n % base, Nat.mod_lt n (by omega), List.mem_singleton.mp isLast⟩

/-- The value of the digits of a number is the number. -/
theorem Decimal.valueOf_inBase (n : Nat) : valueOf base (Text.inBase base n) = n := by
  induction n using Nat.strongRecOn with
  | _ n ih =>
    by_cases small : n < base
    · have value := (CodeUnit.ofDigit_spec n (by omega)).2
      simp [Text.inBase_of_lt sixteen small, valueOf, value]
    · have digit : n % base < base := Nat.mod_lt n (by omega)
      have value := (CodeUnit.ofDigit_spec (n % base) (by omega)).2
      have front := ih (n / base) (Nat.div_lt_self (by omega) two)
      rw [valueOf] at front
      rw [Text.inBase_of_le two sixteen (by omega), valueOf, List.foldl_append, front,
        List.foldl_cons, List.foldl_nil, value, Nat.div_add_mod]

end Digits

/-- A number has digits. -/
theorem Text.inBase_ne_nil (base n : Nat) : inBase base n ≠ [] := by
  cases digits : Nat.toDigits base n with
  | nil => exact absurd digits Nat.toDigits_ne_nil
  | cons c rest =>
    rw [inBase, digits, ofChars, List.flatMap_cons, ofChar]
    split <;> simp

/-- The decimal digits of a number. -/
theorem Text.digitPart_ofNat (n : Nat) : Scan.DigitPart CodeUnit.isDigit (ofNat n) := by
  refine ⟨inBase_ne_nil 10 n, fun u member => ?_⟩
  obtain ⟨digit, small, rfl⟩ := mem_inBase (by decide) (by decide) n u member
  exact CodeUnit.isDigit_ofDigit digit small

/-- The hexadecimal digits of a number. -/
theorem Text.digitPart_hexadecimal (n : Nat) :
    Scan.DigitPart CodeUnit.isHexDigit (inBase 16 n) := by
  refine ⟨inBase_ne_nil 16 n, fun u member => ?_⟩
  obtain ⟨digit, small, rfl⟩ := mem_inBase (by decide) (by decide) n u member
  exact (CodeUnit.ofDigit_spec digit small).1

/-! ## Number tokens -/

/-- A text that begins with a digit is read as a number. -/
theorem Scan.front_number {u : CodeUnit} {rest : Text} (digit : u.isDigit = true) :
    front u rest = (number (u :: rest)).map (.number, ·) := by
  have notStart : isNameStart u = false := by
    have range := (CodeUnit.isDigit_iff u).mp digit
    have lower : isLower u = true ↔ 97 ≤ u.toNat ∧ u.toNat ≤ 122 := by
      simp only [isLower, Bool.and_eq_true, decide_eq_true_eq, UInt16.le_iff_toNat_le]
      exact Iff.rfl
    have upper : isUpper u = true ↔ 65 ≤ u.toNat ∧ u.toNat ≤ 90 := by
      simp only [isUpper, Bool.and_eq_true, decide_eq_true_eq, UInt16.le_iff_toNat_le]
      exact Iff.rfl
    have underscore : u ≠ .ofChar '_' := by
      rintro rfl
      exact absurd digit (by decide)
    rw [isNameStart, Bool.eq_false_iff, ne_eq, Bool.or_eq_true, Bool.or_eq_true, lower,
      upper, beq_iff_eq]
    rintro ((isLower | isUpper) | isUnderscore)
    · omega
    · omega
    · exact underscore isUnderscore
  rw [front_plain (not_opensSpecial (plain_of digit (by decide)) _), notStart,
    if_neg Bool.false_ne_true, if_pos digit]

/-- A numeral that begins with a digit and is read to its end is a token. -/
theorem isLexeme_number {lexeme : Text} (first : ∀ u ∈ lexeme.head?, u.isDigit = true)
    (solid : lexeme ≠ []) (whole : Scan.number lexeme = .ok lexeme.length) :
    IsLexeme .number lexeme := by
  cases lexeme with
  | nil => exact absurd rfl solid
  | cons u tail =>
    have digit := first u rfl
    have notBlank : Scan.isBlank u = false := Scan.notBlank_of CodeUnit.isDigit (by decide) digit
    refine .of_fronts ⟨u, tail, rfl, notBlank, ?_⟩
    rw [List.append_nil, Scan.front_number digit, whole]
    rfl

/-- The decimal digits of a number are a token. -/
theorem isLexeme_ofNat (n : Nat) : IsLexeme .number (Text.ofNat n) := by
  obtain ⟨solid, digits⟩ := Text.digitPart_ofNat n
  refine isLexeme_number (fun u first => digits u (List.mem_of_head? first)) solid ?_
  have whole : Scan.run CodeUnit.isDigit (Text.ofNat n ++ []) = (Text.ofNat n).length :=
    Scan.run_append digits (by simp)
  have unmarked : ¬ Scan.isHexMarked (Text.ofNat n) = true := by
    intro marked
    obtain ⟨mark, rest, same, isMark⟩ := (Scan.isHexMarked_iff _).mp marked
    rw [same] at digits
    rcases isMark with rfl | rfl
    · exact absurd (digits (.ofChar 'x') (List.mem_append_left rest (by decide))) (by decide)
    · exact absurd (digits (.ofChar 'X') (List.mem_append_left rest (by decide))) (by decide)
  have read := @Scan.number_decimal (Text.ofNat n) [] [] []
  simp only [List.append_nil] at read whole
  exact read unmarked whole rfl rfl

/-- The hexadecimal digits of a number behind their mark are a token. -/
theorem isLexeme_hexadecimal (n : Nat) :
    IsLexeme .number (Text.ofString "0x" ++ Text.inBase 16 n) := by
  obtain ⟨solid, digits⟩ := Text.digitPart_hexadecimal n
  refine isLexeme_number (fun u first => ?_) (by simp [solid]) ?_
  · obtain rfl : u = .ofChar '0' := (Option.some.inj first).symm
    decide
  · have count : Scan.run CodeUnit.isHexDigit (Text.inBase 16 n ++ []) =
        (Text.inBase 16 n).length :=
      Scan.run_append digits (by simp)
    rw [List.append_nil] at count
    rw [Scan.number_hexadecimal (.inl rfl), count, if_neg (List.length_pos_iff.mpr solid).ne',
      List.length_append]
    rfl

/-- The decimal digits of a number stand for it. -/
theorem Literal.ofNumber?_ofNat (n : Nat) :
    ofNumber? (Text.ofNat n) = some (.integer n .decimal) := by
  obtain ⟨solid, digits⟩ := Text.digitPart_ofNat n
  have unmarked := Numeral.markedBase?_digits digits
  have noLetter : (Text.ofNat n).any (fun u => u == .ofChar 'e' || u == .ofChar 'E') = false := by
    rw [List.any_eq_false]
    intro u member isLetter
    rcases Bool.or_eq_true_iff.mp isLetter with same | same
    · exact absurd (beq_iff_eq.mp same ▸ digits u member) (by decide)
    · exact absurd (beq_iff_eq.mp same ▸ digits u member) (by decide)
  have noPoint : (Text.ofNat n).any (· == .ofChar '.') = false := by
    rw [List.any_eq_false]
    intro u member same
    exact absurd (beq_iff_eq.mp same ▸ digits u member) (by decide)
  have value : Decimal.valueOf 10 (Text.ofNat n) = n :=
    Decimal.valueOf_inBase (by decide) (by decide) n
  rw [ofNumber?, unmarked, noLetter, noPoint, Numeral.integer?_decimal ⟨solid, digits⟩, value]
  rfl

/-- The hexadecimal digits of a number behind their mark stand for it. -/
theorem Literal.ofNumber?_hexadecimal (n : Nat) :
    ofNumber? (Text.ofString "0x" ++ Text.inBase 16 n) = some (.integer n .hexadecimal) := by
  have marked : Numeral.markedBase? (Text.ofString "0x" ++ Text.inBase 16 n) = some 16 := rfl
  rw [ofNumber?, if_pos marked, Numeral.integer?_hexadecimal (.inl rfl)
      (Text.digitPart_hexadecimal n), Decimal.valueOf_inBase (by decide) (by decide) n]
  rfl

end Marginalia
