import Marginalia.Proofs.Scan.Front
import Marginalia.Syntax.Literal

/-!
# Numbers of number tokens

Every spelling that a number token can have stands for a number.
-/

namespace Marginalia

/-- A text without white space loses nothing at its ends. -/
theorem Text.trim_eq_self {text : Text} (solid : ∀ u ∈ text, u.isWhiteSpace = false) :
    text.trim = text := by
  have keeps : ∀ part : Text, (∀ u ∈ part, u.isWhiteSpace = false) →
        part.dropWhile CodeUnit.isWhiteSpace = part := by
    intro part solidPart
    cases part with
    | nil => rfl
    | cons u rest => rw [List.dropWhile_cons_of_neg (by simp [solidPart u (.head _)])]
  rw [trim, keeps text solid,
    keeps text.reverse (fun u member => solid u (List.mem_reverse.mp member)), List.reverse_reverse]

/-- The code units of hexadecimal digits. -/
theorem CodeUnit.isHexDigit_iff (u : CodeUnit) :
    u.isHexDigit = true ↔ 48 ≤ u.toNat ∧ u.toNat ≤ 57 ∨ 97 ≤ u.toNat ∧ u.toNat ≤ 102 ∨
    65 ≤ u.toNat ∧ u.toNat ≤ 70 := by
  simp only [isHexDigit, isDigit, Bool.or_eq_true, Bool.and_eq_true, decide_eq_true_eq,
    UInt16.le_iff_toNat_le, or_assoc]
  exact Iff.rfl

/-- The code units of decimal digits. -/
theorem CodeUnit.isDigit_iff (u : CodeUnit) : u.isDigit = true ↔ 48 ≤ u.toNat ∧ u.toNat ≤ 57 := by
  simp only [isDigit, Bool.and_eq_true, decide_eq_true_eq, UInt16.le_iff_toNat_le]
  exact Iff.rfl

/-- No hexadecimal digit is white space. -/
theorem CodeUnit.isWhiteSpace_of_isHexDigit {u : CodeUnit} (digit : u.isHexDigit = true) :
    u.isWhiteSpace = false := by
  rw [isHexDigit_iff] at digit
  rw [isWhiteSpace, Bool.eq_false_iff]
  simp only [ne_eq, Bool.or_eq_true, Bool.and_eq_true, decide_eq_true_eq, beq_iff_eq,
    UInt16.le_iff_toNat_le, ← UInt16.toNat_inj]
  simp only [UInt16.reduceToNat]
  omega

/-- Hexadecimal digits are digits in base sixteen. -/
theorem Numeral.isDigitIn_sixteen {u : CodeUnit} (digit : u.isHexDigit = true) :
    isDigitIn 16 u = true := by
  have range := (CodeUnit.isHexDigit_iff u).mp digit
  have isDecimal := CodeUnit.isDigit_iff u
  have below : u.digitValue < 16 := by
    unfold CodeUnit.digitValue
    split
    · rename_i decimal
      have upper := isDecimal.mp decimal
      omega
    · split
      · omega
      · rename_i notDecimal notLower
        rw [UInt16.le_iff_toNat_le] at notLower
        have upper : ¬ 97 ≤ u.toNat := notLower
        omega
  simp [isDigitIn, digit, below]

/-- Decimal digits are digits in base ten. -/
theorem Numeral.isDigitIn_ten {u : CodeUnit} (digit : u.isDigit = true) :
    isDigitIn 10 u = true := by
  have range := (CodeUnit.isDigit_iff u).mp digit
  have below : u.digitValue < 10 := by
    rw [CodeUnit.digitValue, if_pos digit]
    omega
  simp [isDigitIn, CodeUnit.isHexDigit, digit, below]

/-- One or more digits have a value. -/
theorem Numeral.digits?_eq_some {base : Nat} {text : Text} (some : text ≠ [])
    (all : ∀ u ∈ text, isDigitIn base u = true) :
    digits? base text = Option.some (Decimal.valueOf base text) := by
  rw [digits?, if_pos ⟨some, List.all_eq_true.mpr all⟩]

/-- A marked hexadecimal numeral has the value of its digits. -/
theorem Numeral.integer?_hexadecimal {mark digits : Text}
    (marked : mark = Text.ofString "0x" ∨ mark = Text.ofString "0X")
    (part : Scan.DigitPart CodeUnit.isHexDigit digits) :
    integer? (mark ++ digits) = some (Decimal.valueOf 16 digits : Int) := by
  have base : markedBase? (mark ++ digits) = some 16 := by
    rcases marked with rfl | rfl <;> rfl
  have behind : (mark ++ digits).drop 2 = digits := by
    rcases marked with rfl | rfl <;> rfl
  have markSolid : mark.any CodeUnit.isWhiteSpace = false := by
    rcases marked with rfl | rfl <;> decide
  have solid : ∀ u ∈ mark ++ digits, u.isWhiteSpace = false := by
    intro u member
    rcases List.mem_append.mp member with inMark | inDigits
    · exact Bool.eq_false_iff.mpr (List.any_eq_false.mp markSolid u inMark)
    · exact CodeUnit.isWhiteSpace_of_isHexDigit (part.2 u inDigits)
  have value : marked? (mark ++ digits) = some (Decimal.valueOf 16 digits) := by
    rw [marked?, base, Option.bind_eq_bind, Option.bind_some, behind]
    exact digits?_eq_some part.1 fun u member => isDigitIn_sixteen (part.2 u member)
  simp [integer?, Text.trim_eq_self solid, value, part.1]

/-- Decimal digits mark no base. -/
theorem Numeral.markedBase?_digits {digits : Text} (all : ∀ u ∈ digits, u.isDigit = true) :
    markedBase? digits = none := by
  have letters : ∀ entry ∈ markedBases, ∃ v ∈ Text.ofChars ['0', entry.1], v.isDigit = false := by
    decide
  rw [markedBase?, Option.map_eq_none_iff, List.find?_eq_none]
  intro entry member opens
  obtain ⟨v, inMark, notDigit⟩ := letters entry member
  obtain ⟨rest, rfl⟩ := List.isPrefixOf_iff_prefix.mp opens
  rw [all v (List.mem_append_left rest inMark)] at notDigit
  cases notDigit

/-- One or more decimal digits have their value. -/
theorem Numeral.integer?_decimal {digits : Text} (part : Scan.DigitPart CodeUnit.isDigit digits) :
    integer? digits = some (Decimal.valueOf 10 digits : Int) := by
  obtain ⟨some, all⟩ := part
  have solid : ∀ u ∈ digits, u.isWhiteSpace = false := by
    intro u member
    refine CodeUnit.isWhiteSpace_of_isHexDigit ?_
    simp [CodeUnit.isHexDigit, all u member]
  have unsigned : Decimal.splitSign digits = (false, digits) := by
    cases digits with
    | nil => exact absurd rfl some
    | cons u rest =>
      have digit := all u (.head _)
      have notMinus : u ≠ .ofChar '-' := by rintro rfl; revert digit; decide
      have notPlus : u ≠ .ofChar '+' := by rintro rfl; revert digit; decide
      simp [Decimal.splitSign, notMinus, notPlus]
  have value : signed? digits = Option.some (Decimal.valueOf 10 digits : Int) := by
    rw [signed?, unsigned]
    simp only [digits?_eq_some some fun u member => isDigitIn_ten (all u member), Option.map_some]
    rfl
  have unmarked : marked? digits = none := by
    rw [marked?, markedBase?_digits all]
    rfl
  simp only [integer?, Text.trim_eq_self solid, if_neg some, value, unmarked]
  rfl

/-- Base sixteen is marked by one letter in either case. -/
theorem Numeral.second_of_markedBase? {text : Text} (marked : markedBase? text = some 16) :
    ∃ zero letter rest, text = zero :: letter :: rest ∧
      (letter = .ofChar 'x' ∨ letter = .ofChar 'X') := by
  obtain ⟨entry, found, base⟩ := Option.map_eq_some_iff.mp marked
  have opens := List.find?_some found
  have member := List.mem_of_find?_eq_some found
  obtain ⟨rest, rfl⟩ := List.isPrefixOf_iff_prefix.mp opens
  simp only [markedBases, List.mem_cons, List.not_mem_nil, or_false] at member
  rcases member with rfl | rfl | rfl | rfl | rfl | rfl
  all_goals first
    | exact absurd base (by decide)
    | exact ⟨_, _, rest, rfl, by decide⟩

/-- A decimal spelling has no mark of base sixteen. -/
theorem Numeral.markedBase?_decimal {whole part power : Text} (all : ∀ u ∈ whole, u.isDigit = true)
    (some : whole ≠ []) (fraction : Scan.FractionPart part) (exponent : Scan.ExponentPart power) :
    markedBase? (whole ++ (part ++ power)) ≠ Option.some 16 := by
  intro marked
  obtain ⟨zero, letter, rest, same, isLetter⟩ := second_of_markedBase? marked
  have notDigit : letter.isDigit = false := by rcases isLetter with rfl | rfl <;> decide
  have notPoint : letter ≠ .ofChar '.' := by rcases isLetter with rfl | rfl <;> decide
  have notMark : Scan.isExponentMark letter = false := by rcases isLetter with rfl | rfl <;> decide
  match whole with
  | [] => exact some rfl
  | first :: second :: others =>
    have digit := all second (.tail _ (.head _))
    simp only [List.cons_append, List.cons.injEq] at same
    rw [same.2.1, notDigit] at digit
    cases digit
  | [first] =>
    simp only [List.cons_append, List.nil_append, List.cons.injEq] at same
    rcases fraction with rfl | ⟨digits, rfl, -⟩
    · rcases exponent with rfl | ⟨mark, sign, digits, rfl, isMark, -⟩
      · exact List.cons_ne_nil _ _ same.2.symm
      · rw [(List.cons.inj same.2).1, notMark] at isMark
        cases isMark
    · exact notPoint (List.cons.inj same.2).1.symm

/-- A decimal spelling that begins with a digit has digits before the point and the exponent. -/
theorem Numeral.whole_ne_nil {whole part power tail : Text} {first : CodeUnit}
    (digit : first.isDigit = true) (fraction : Scan.FractionPart part)
    (exponent : Scan.ExponentPart power) (begins : whole ++ (part ++ power) = first :: tail) :
    whole ≠ [] := by
  rintro rfl
  rcases fraction with rfl | ⟨digits, rfl, -⟩
  · rcases exponent with rfl | ⟨mark, sign, digits, rfl, isMark, -⟩
    · cases begins
    · obtain ⟨rfl, -⟩ := List.cons.inj begins
      rw [Scan.isDigit_of_isExponentMark isMark] at digit
      cases digit
  · obtain ⟨rfl, -⟩ := List.cons.inj begins
    exact absurd digit (by decide)

namespace Scan

variable {whole part power : Text}

/-- Every unit of a fraction is its point or a digit. -/
theorem FractionPart.units (fraction : FractionPart part) :
    ∀ u ∈ part, u = .ofChar '.' ∨ u.isDigit = true := by
  rcases fraction with rfl | ⟨digits, rfl, -, all⟩
  · simp
  · exact List.forall_mem_cons.mpr ⟨.inl rfl, fun u member => .inr (all u member)⟩

/-- Every unit of an exponent is its mark, a sign or a digit. -/
theorem ExponentPart.units (exponent : ExponentPart power) :
    ∀ u ∈ power, isExponentMark u = true ∨ isSign u = true ∨ u.isDigit = true := by
  rcases exponent with rfl | ⟨mark, sign, digits, rfl, isMark, signed, -, all⟩
  · simp
  · have ofSign : ∀ u ∈ sign, isSign u = true := by
      rcases signed with rfl | ⟨s, rfl, isSign⟩ <;> simp_all
    refine List.forall_mem_cons.mpr ⟨.inl isMark, fun u member => ?_⟩
    exact .inr ((List.mem_append.mp member).imp (ofSign u) (all u))

/-- An exponent has a mark. -/
theorem ExponentPart.has_mark (exponent : ExponentPart power) (some : power ≠ []) :
    ∃ u ∈ power, isExponentMark u = true := by
  rcases exponent with rfl | ⟨mark, sign, digits, rfl, isMark, -⟩
  · exact absurd rfl some
  · exact ⟨mark, .head _, isMark⟩

/-- A fraction has a point. -/
theorem FractionPart.has_point (fraction : FractionPart part) (some : part ≠ []) :
    CodeUnit.ofChar '.' ∈ part := by
  rcases fraction with rfl | ⟨digits, rfl, -⟩
  · exact absurd rfl some
  · exact .head _

variable (all : ∀ u ∈ whole, u.isDigit = true) (fraction : FractionPart part)
  (exponent : ExponentPart power)

include all fraction exponent

/-- A mark of an exponent stands in a decimal spelling only where there is an exponent. -/
theorem has_mark_iff : (∃ u ∈ whole ++ (part ++ power), isExponentMark u = true) ↔ power ≠ [] := by
  constructor
  · rintro ⟨u, member, isMark⟩ rfl
    have other : u.isDigit = true ∨ u = .ofChar '.' ∨ u.isDigit = true := by
      rw [List.append_nil] at member
      exact (List.mem_append.mp member).imp (all u) (fraction.units u)
    rcases isExponentMark_iff.mp isMark with rfl | rfl <;> revert other <;> decide
  · intro some
    obtain ⟨u, member, isMark⟩ := exponent.has_mark some
    exact ⟨u, List.mem_append_right _ (List.mem_append_right _ member), isMark⟩

/-- A point stands in a decimal spelling only where there is a fraction. -/
theorem has_point_iff : CodeUnit.ofChar '.' ∈ whole ++ (part ++ power) ↔ part ≠ [] := by
  constructor
  · rintro member rfl
    rcases List.mem_append.mp member with inWhole | inPower
    · exact absurd (all _ inWhole) (by decide)
    · exact absurd (exponent.units _ inPower) (by decide)
  · intro some
    exact List.mem_append_right _ (List.mem_append_left _ (fraction.has_point some))

/-- A search for the letters of an exponent tells whether there is one. -/
theorem any_mark_iff :
    (whole ++ (part ++ power)).any (fun u => u == .ofChar 'e' || u == .ofChar 'E') = true ↔
    power ≠ [] := by
  rw [← has_mark_iff all fraction exponent]
  simp only [isExponentMark_iff, List.any_eq_true, Bool.or_eq_true, beq_iff_eq]

/-- A search for a point tells whether there is a fraction. -/
theorem any_point_iff : (whole ++ (part ++ power)).any (· == .ofChar '.') = true ↔ part ≠ [] := by
  rw [← has_point_iff all fraction exponent]
  simp

end Scan

/-- The spelling of a number token stands for a number. -/
theorem Literal.ofNumber?_of_shape {lexeme : Text} (shape : Scan.Shape .number lexeme) :
    ∃ number, ofNumber? lexeme = some number := by
  obtain ⟨form, first, tail, begins, digit⟩ := shape
  cases form with
  | @hexadecimal mark digits marked part =>
    have base : Numeral.markedBase? (mark ++ digits) = some 16 := by
      rcases marked with rfl | rfl <;> rfl
    rw [ofNumber?, if_pos base, Numeral.integer?_hexadecimal marked part]
    exact ⟨_, rfl⟩
  | @decimal whole part power all fraction exponent =>
    have wholeSome := Numeral.whole_ne_nil digit fraction exponent begins
    rw [ofNumber?, if_neg (Numeral.markedBase?_decimal all wholeSome fraction exponent)]
    split
    · exact ⟨_, rfl⟩
    · rename_i noMark
      split
      · exact ⟨_, rfl⟩
      · rename_i noPoint
        -- Neither a point nor an exponent is left, so the digits are all there is.
        obtain rfl : power = [] := by
          by_contra some
          exact noMark ((Scan.any_mark_iff all fraction exponent).mpr some)
        obtain rfl : part = [] := by
          by_contra some
          exact noPoint ((Scan.any_point_iff all fraction exponent).mpr some)
        rw [List.append_nil, List.append_nil, Numeral.integer?_decimal ⟨wholeSome, all⟩]
        exact ⟨_, rfl⟩

end Marginalia
