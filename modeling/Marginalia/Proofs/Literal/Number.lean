import Marginalia.Proofs.Literal.Token
import Marginalia.Proofs.Scan.Numeral
import Mathlib.Data.Nat.Digits.Defs

/-!
# Numbers are read by their spelling

A number token is spelled in one of two ways, in base sixteen with a mark in front or in base ten
with perhaps a fraction and an exponent. Its spelling tells which form of literal it is, although
the tests for the forms look for single units only, and an integer has the value of all its digits,
however many there are.
-/

namespace Marginalia
open Marginalia.Parser Marginalia.Grammar

/-- The value of a digit: its place among the digits in either case. -/
def CodeUnit.rank (u : CodeUnit) : Nat :=
  ((Text.ofString "0123456789abcdef").idxOf? u <|> (Text.ofString "0123456789ABCDEF").idxOf? u).getD
    0

namespace Text

/-- The value of digits in a base, the last digit counting one. -/
def positional (base : Nat) (digits : Text) : Nat :=
  Nat.ofDigits base (digits.reverse.map CodeUnit.rank)

/-- The text opens with a zero and the mark of base sixteen. -/
def IsHexadecimal (text : Text) : Prop := ofString "0x" <+: text ∨ ofString "0X" <+: text

/-- The text closes with the mark of an exponent, perhaps a sign, and digits. -/
def HasExponent (text : Text) : Prop := ∃ before power, text = before ++ power ∧ power ≠ [] ∧
  Scan.ExponentPart power

/-- A point and digits stand in the text. -/
def HasFraction (text : Text) : Prop :=
  ∃ before part after, text = before ++ (part ++ after) ∧ part ≠ [] ∧ Scan.FractionPart part

end Text

/-- The literal that is spelled by the lexeme of a number token: the spelling tells the form, and
the digits of an integer tell its value. -/
structure Literal.Spelled (lexeme : Text) (number : Literal) : Prop where
  /-- The mark of base sixteen makes a hexadecimal integer. -/
  hexadecimal : (∃ value, number = .integer value .hexadecimal) ↔ lexeme.IsHexadecimal
  /-- An exponent without that mark makes a floating-point number with an exponent. -/
  exponent : (∃ value, number = .float value .exponent) ↔ ¬ lexeme.IsHexadecimal ∧
    lexeme.HasExponent
  /-- A fraction without an exponent makes a floating-point number without an exponent. -/
  fraction : (∃ value, number = .float value .decimal) ↔ lexeme.HasFraction ∧ ¬ lexeme.HasExponent
  /-- Nothing but digits makes a decimal integer. -/
  whole : (∃ value, number = .integer value .decimal) ↔ Scan.DigitPart CodeUnit.isDigit lexeme
  /-- A hexadecimal integer has the value of the digits behind the mark. -/
  sixteen : ∀ value, number = .integer value .hexadecimal →
      value = Text.positional 16 (lexeme.drop 2)
  /-- A decimal integer has the value of the digits. -/
  ten : ∀ value, number = .integer value .decimal → value = Text.positional 10 lexeme

/-! ## Values of digits -/

/-- The value of a digit is its rank. -/
theorem CodeUnit.digitValue_eq_rank {u : CodeUnit} (digit : u.isHexDigit = true) :
    u.digitValue = u.rank := by
  have small : u.toNat < 103 := by
    have range := (isHexDigit_iff u).mp digit
    omega
  have all : ∀ n < 103, isHexDigit (.ofNat n) = true → digitValue (.ofNat n) = rank (.ofNat n) := by
    decide
  have same := all u.toNat small
  rw [UInt16.ofNat_toNat] at same
  exact same digit

/-- Digits are read in the base in which they are written. -/
theorem Decimal.valueOf_eq_positional {base : Nat} {digits : Text}
    (all : ∀ u ∈ digits, u.isHexDigit = true) :
    valueOf base digits = Text.positional base digits := by
  have ranks : digits.reverse.map CodeUnit.rank = (digits.map CodeUnit.digitValue).reverse := by
    rw [← List.map_reverse]
    refine List.map_congr_left fun u member => (CodeUnit.digitValue_eq_rank (all u ?_)).symm
    exact List.mem_reverse.mp member
  rw [Text.positional, ranks, Nat.ofDigits_eq_foldr, List.foldr_reverse, List.foldl_map, valueOf]
  simp only [Nat.cast_id, Nat.add_comm]

/-! ## The parts of a decimal spelling -/

namespace Scan

variable {whole part power : Text} (all : ∀ u ∈ whole, u.isDigit = true)
  (fraction : FractionPart part) (exponent : ExponentPart power)

include all fraction exponent

/-- A decimal spelling has an exponent if there is one among its parts. -/
theorem hasExponent_iff : (whole ++ (part ++ power)).HasExponent ↔ power ≠ [] := by
  constructor
  · rintro ⟨before, other, same, some, isExponent⟩
    obtain ⟨u, member, isMark⟩ := isExponent.has_mark some
    exact (has_mark_iff all fraction exponent).mp ⟨u, same ▸ List.mem_append_right _ member, isMark⟩
  · exact fun some => ⟨whole ++ part, power, by rw [List.append_assoc], some, exponent⟩

/-- A decimal spelling has a fraction if there is one among its parts. -/
theorem hasFraction_iff : (whole ++ (part ++ power)).HasFraction ↔ part ≠ [] := by
  constructor
  · rintro ⟨before, other, after, same, some, isFraction⟩
    refine (has_point_iff all fraction exponent).mp (same ▸ ?_)
    exact List.mem_append_right _ (List.mem_append_left _ (isFraction.has_point some))
  · exact fun some => ⟨whole, part, power, rfl, some, fraction⟩

/-- A decimal spelling is made of digits only if there is neither a fraction nor an exponent. -/
theorem digits_iff :
    (∀ u ∈ whole ++ (part ++ power), u.isDigit = true) ↔ part = [] ∧ power = [] := by
  constructor
  · intro digits
    constructor
    · by_contra some
      exact absurd (digits _ ((has_point_iff all fraction exponent).mpr some)) (by decide)
    · by_contra some
      obtain ⟨u, member, isMark⟩ := (has_mark_iff all fraction exponent).mpr some
      exact absurd (digits u member) (Bool.eq_false_iff.mp (isDigit_of_isExponentMark isMark))
  · rintro ⟨rfl, rfl⟩
    simpa using all

end Scan

/-! ## The literals of number tokens -/

/-- A marked spelling is that of a hexadecimal integer. -/
theorem Literal.spelled_hexadecimal {mark digits : Text}
    (marked : mark = Text.ofString "0x" ∨ mark = Text.ofString "0X")
    (part : Scan.DigitPart CodeUnit.isHexDigit digits) :
    ∃ number, ofNumber? (mark ++ digits) = some number ∧ number.Spelled (mark ++ digits) := by
  have base : Numeral.markedBase? (mark ++ digits) = some 16 := by
    rcases marked with rfl | rfl <;> rfl
  have behind : (mark ++ digits).drop 2 = digits := by rcases marked with rfl | rfl <;> rfl
  have isHexadecimal : (mark ++ digits).IsHexadecimal := by
    rcases marked with rfl | rfl
    · exact .inl ⟨digits, rfl⟩
    · exact .inr ⟨digits, rfl⟩
  have noFraction : ¬ (mark ++ digits).HasFraction := by
    rintro ⟨before, point, after, same, some, fraction⟩
    have member : CodeUnit.ofChar '.' ∈ mark ++ digits :=
      same ▸ List.mem_append_right _ (List.mem_append_left _ (fraction.has_point some))
    rcases List.mem_append.mp member with inMark | inDigits
    · rcases marked with rfl | rfl <;> exact absurd inMark (by decide)
    · exact absurd (part.2 _ inDigits) (by decide)
  have notWhole : ¬ Scan.DigitPart CodeUnit.isDigit (mark ++ digits) := by
    rintro ⟨-, all⟩
    rcases marked with rfl | rfl
    · exact absurd (all (.ofChar 'x') (.tail _ (.head _))) (by decide)
    · exact absurd (all (.ofChar 'X') (.tail _ (.head _))) (by decide)
  refine ⟨integer (Decimal.valueOf 16 digits) .hexadecimal, ?_, ?_⟩
  · rw [ofNumber?, if_pos base, Numeral.integer?_hexadecimal marked part]
    rfl
  · exact {
      hexadecimal := iff_of_true ⟨_, rfl⟩ isHexadecimal
      exponent := iff_of_false (by simp) fun h => h.1 isHexadecimal
      fraction := iff_of_false (by simp) fun h => noFraction h.1
      whole := iff_of_false (by simp) notWhole
      sixteen := by
        rintro value same
        obtain ⟨rfl, -⟩ := integer.inj same
        rw [behind, Decimal.valueOf_eq_positional part.2]
      ten := by simp }

/-- A decimal spelling is that of a number by the parts that it has. -/
theorem Literal.spelled_decimal {whole part power : Text} (some : whole ≠ [])
    (all : ∀ u ∈ whole, u.isDigit = true) (fraction : Scan.FractionPart part)
    (exponent : Scan.ExponentPart power) :
    ∃ number, ofNumber? (whole ++ (part ++ power)) = Option.some number ∧
      number.Spelled (whole ++ (part ++ power)) := by
  have unmarked := Numeral.markedBase?_decimal all some fraction exponent
  have notHexadecimal : ¬ (whole ++ (part ++ power)).IsHexadecimal := by
    rintro (⟨rest, same⟩ | ⟨rest, same⟩) <;> exact unmarked (by rw [← same]; rfl)
  have hasExponent := Scan.hasExponent_iff all fraction exponent
  have hasFraction := Scan.hasFraction_iff all fraction exponent
  have digits := Scan.digits_iff all fraction exponent
  have marks := Scan.any_mark_iff all fraction exponent
  have points := Scan.any_point_iff all fraction exponent
  rw [ofNumber?, if_neg unmarked]
  by_cases powered : power ≠ []
  · rw [if_pos (marks.mpr powered)]
    refine ⟨_, rfl, ?_⟩
    exact {
      hexadecimal := iff_of_false (by simp) notHexadecimal
      exponent := iff_of_true ⟨_, rfl⟩ ⟨notHexadecimal, hasExponent.mpr powered⟩
      fraction := iff_of_false (by simp) fun h => h.2 (hasExponent.mpr powered)
      whole := iff_of_false (by simp) fun h => powered (digits.mp h.2).2
      sixteen := by simp
      ten := by simp }
  rw [if_neg (fun found => powered (marks.mp found))]
  by_cases parted : part ≠ []
  · rw [if_pos (points.mpr parted)]
    refine ⟨_, rfl, ?_⟩
    exact {
      hexadecimal := iff_of_false (by simp) notHexadecimal
      exponent := iff_of_false (by simp) fun h => powered (hasExponent.mp h.2)
      fraction := iff_of_true ⟨_, rfl⟩ ⟨hasFraction.mpr parted, fun h => powered (hasExponent.mp h)⟩
      whole := iff_of_false (by simp) fun h => parted (digits.mp h.2).1
      sixteen := by simp
      ten := by simp }
  rw [if_neg (fun found => parted (points.mp found))]
  obtain rfl : power = [] := Classical.not_not.mp powered
  obtain rfl : part = [] := Classical.not_not.mp parted
  rw [List.append_nil, List.append_nil] at *
  refine ⟨integer (Decimal.valueOf 10 whole) .decimal, ?_, ?_⟩
  · rw [Numeral.integer?_decimal ⟨some, all⟩]
    rfl
  · exact {
      hexadecimal := iff_of_false (by simp) notHexadecimal
      exponent := iff_of_false (by simp) fun h => powered (hasExponent.mp h.2)
      fraction := iff_of_false (by simp) fun h => parted (hasFraction.mp h.1)
      whole := iff_of_true ⟨_, rfl⟩ ⟨some, all⟩
      sixteen := by simp
      ten := by
        rintro value same
        obtain ⟨rfl, -⟩ := integer.inj same
        rw [Decimal.valueOf_eq_positional
            fun u member => by simp [CodeUnit.isHexDigit, all u member]] }

/-- Every number token of a source stands for the number that it spells, and the grammar reads that
number. -/
theorem numbers_are_spelled {source : Text} {tokens : List Token}
    (scan : Token.scan source = .ok tokens) {token : Token} (member : token ∈ tokens)
    (isNumber : token.kind = .number) :
    ∃ number, Literal.ofNumber? token.lexeme = some number ∧ number.Spelled token.lexeme ∧
      ∀ (input : Input) (cursor : Cursor), input.tokenAt? cursor.index = some token →
      StartsAt token cursor → literal input cursor = .done number (past token cursor) := by
  have shape := ((Scan.scan_eq_ok_iff source tokens).mp scan).shape token member
  rw [isNumber] at shape
  obtain ⟨form, first, tail, begins, digit⟩ := shape
  have spelled :
      ∃ number, Literal.ofNumber? token.lexeme = some number ∧ number.Spelled token.lexeme := by
    generalize token.lexeme = lexeme at form begins
    cases form with
    | hexadecimal marked part => exact Literal.spelled_hexadecimal marked part
    | decimal all fraction exponent =>
      exact Literal.spelled_decimal (Numeral.whole_ne_nil digit fraction exponent begins) all
        fraction exponent
  obtain ⟨number, found, told⟩ := spelled
  refine ⟨number, found, told, fun input cursor next adjacent => literal_of_token next adjacent ?_⟩
  rw [Token.literal?, isNumber]
  exact found

/-- The letter of an exponent is a digit behind the mark of base sixteen. -/
theorem hexadecimal_with_e_is_spelled :
    ∃ tokens, Token.scan "0x1e2" = .ok tokens ∧ ∃ token ∈ tokens, token.kind = .number ∧
      Literal.ofNumber? token.lexeme = some (.integer 0x1e2 .hexadecimal) ∧
      (Literal.integer 0x1e2 .hexadecimal).Spelled token.lexeme := by
  have scan : Token.scan "0x1e2" = .ok [⟨.number, "0x1e2", ⟨⟨0, 1, 1⟩, ⟨5, 1, 6⟩⟩⟩,
        ⟨.eof, "", ⟨⟨5, 1, 6⟩, ⟨5, 1, 6⟩⟩⟩] := by decide +kernel
  obtain ⟨number, found, spelled, -⟩ := numbers_are_spelled scan (.head _) rfl
  have value : Literal.ofNumber? "0x1e2" = some (.integer 0x1e2 .hexadecimal) := by decide +kernel
  obtain rfl := Option.some.inj (value.symm.trans found)
  exact ⟨_, scan, _, .head _, rfl, value, spelled⟩

end Marginalia
