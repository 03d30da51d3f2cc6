import Mathlib.Algebra.Group.Nat.Defs
import Marginalia.Json.Reader
import Marginalia.Proofs.Writing.Numeral

/-!
# Quoted texts

The inside of a quoted text spells units one by one, in one of three ways. Whatever units a text
has, halves of pairs, quotes and control characters included, it is read back from between its
quotes, and nothing of what follows is taken with it.
-/

namespace Marginalia

/-! ## Digits of a fixed width -/

/-- The digits of a number are as many units as characters. -/
theorem Text.length_inBase {base : Nat} (two : 1 < base) (sixteen : base ≤ 16) (n : Nat) :
    (inBase base n).length = (Nat.toDigits base n).length := by
  induction n using Nat.strongRecOn with
  | _ n ih =>
    by_cases small : n < base
    · rw [inBase_of_lt sixteen small, Nat.toDigits_of_lt_base small]
      rfl
    · have front := ih (n / base) (Nat.div_lt_self (by omega) two)
      rw [inBase_of_le two sixteen (by omega), Nat.toDigits_of_base_le two (by omega),
        List.length_append, List.length_append, front]
      rfl

/-- A number below a power of the base has no more digits than the power. -/
theorem Text.length_inBase_le {base : Nat} (two : 1 < base) (sixteen : base ≤ 16) {n width : Nat}
    (wide : 0 < width) (small : n < base ^ width) : (inBase base n).length ≤ width := by
  induction width generalizing n with
  | zero => exact absurd wide (Nat.lt_irrefl 0)
  | succ width ih =>
    by_cases one : n < base
    · rw [inBase_of_lt sixteen one, List.length_singleton]
      omega
    · have front : n / base < base ^ width := by
        rw [Nat.div_lt_iff_lt_mul (by omega), ← Nat.pow_succ]
        exact small
      have some : 0 < width := by
        by_contra none
        obtain rfl : width = 0 := by omega
        rw [Nat.zero_add, Nat.pow_one] at small
        omega
      have shorter := ih some front
      rw [inBase_of_le two sixteen (by omega), List.length_append, List.length_singleton]
      omega

/-- Zeros in front of digits do not count. -/
theorem Decimal.valueOf_zeros (base count : Nat) (digits : Text) :
    valueOf base (List.replicate count (CodeUnit.ofDigit 0) ++ digits) = valueOf base digits := by
  have zero : (CodeUnit.ofDigit 0).digitValue = 0 := by decide
  induction count with
  | zero => rfl
  | succ count ih =>
    rw [List.replicate_succ, List.cons_append, valueOf, List.foldl_cons, zero,
      Nat.mul_zero, Nat.add_zero]
    exact ih

namespace Json

/-- The digits of a unit are its number in base sixteen behind zeros. -/
theorem hexDigits_eq (u : CodeUnit) :
    hexDigits u = List.replicate (4 - (Text.inBase 16 u.toNat).length) (CodeUnit.ofDigit 0) ++
      Text.inBase 16 u.toNat := by
  have zeros (count : Nat) :
      Text.ofChars (List.replicate count '0') = List.replicate count (CodeUnit.ofDigit 0) := by
    induction count with
    | zero => rfl
    | succ count ih =>
      rw [List.replicate_succ, List.replicate_succ, Text.ofChars, List.flatMap_cons,
        ← Text.ofChars, ih]
      rfl
  have both : hexDigits u = Text.ofChars (List.replicate
        (4 - (Nat.toDigits 16 u.toNat).length) '0') ++ Text.inBase 16 u.toNat := List.flatMap_append
  rw [both, zeros, Text.length_inBase (by decide) (by decide)]

/-- A unit has four digits, which are hexadecimal and spell its number. -/
theorem hexDigits_spec (u : CodeUnit) :
    (hexDigits u).length = 4 ∧ (hexDigits u).all CodeUnit.isHexDigit = true ∧
      Decimal.valueOf 16 (hexDigits u) = u.toNat := by
  have small : u.toNat < 16 ^ 4 := u.toNat_lt
  have short := Text.length_inBase_le (by decide) (by decide) (by decide : 0 < 4) small
  have isDigit := (Text.digitPart_hexadecimal u.toNat).2
  rw [hexDigits_eq]
  refine ⟨?_, ?_, ?_⟩
  · rw [List.length_append, List.length_replicate]
    omega
  · rw [List.all_append, Bool.and_eq_true, List.all_eq_true, List.all_eq_true]
    refine ⟨fun digit member => ?_, isDigit⟩
    rw [List.eq_of_mem_replicate member]
    decide
  · rw [Decimal.valueOf_zeros, Decimal.valueOf_inBase (by decide) (by decide)]

/-! ## Escaped texts -/

/-- The mark that texts stand between. -/
def quoteMark : CodeUnit := .ofChar '"'

/-- The mark that escapes begin with. -/
def escapeMark : CodeUnit := .ofChar '\\'

/-- The inside of a quoted text spells units, one after the other. -/
inductive Escaped : Text → Text → Prop
  | nil : Escaped [] []
  /-- A unit that is no mark and no control character spells itself. -/
  | plain {u : CodeUnit} {inside units : Text} (notQuote : u ≠ quoteMark)
      (notEscape : u ≠ escapeMark) (notControl : ¬u < 0x20) (rest : Escaped inside units) :
      Escaped (u :: inside) (u :: units)
  /-- Some units are spelled by a letter behind the mark. -/
  | short {u : CodeUnit} {letter : Char} {inside units : Text}
      (isShort : (u, letter) ∈ shortEscapes) (rest : Escaped inside units) :
      Escaped (Text.ofChars ['\\', letter] ++ inside) (u :: units)
  /-- Any unit is spelled by its number. -/
  | numeric (u : CodeUnit) {inside units : Text} (rest : Escaped inside units) :
      Escaped (numericEscape u ++ inside) (u :: units)

variable {u : CodeUnit} {letter : Char} {inside units : Text}

/-- What a letter behind the mark is, and which unit it stands for. -/
theorem shortEscape_spec (isShort : (u, letter) ∈ shortEscapes) :
    Text.ofChars ['\\', letter] = [escapeMark, .ofChar letter] ∧
    CodeUnit.ofChar letter ≠ .ofChar 'u' ∧ Reader.shortEscape? (.ofChar letter) = some u := by
  have known : ∀ entry ∈ shortEscapes, Text.ofChars ['\\', entry.2] =
        [escapeMark, .ofChar entry.2] ∧ CodeUnit.ofChar entry.2 ≠ .ofChar 'u' ∧
        Reader.shortEscape? (.ofChar entry.2) = some entry.1 := by decide
  exact known _ isShort

/-- A unit is spelled by how it is escaped. -/
theorem Escaped.unit (u : CodeUnit) (rest : Escaped inside units) :
    Escaped (escapeUnit u ++ inside) (u :: units) := by
  rw [escapeUnit]
  cases found : shortEscapes.find? (·.1 == u) with
  | some entry =>
    obtain ⟨unit, letter⟩ := entry
    have same : unit = u := by simpa using List.find?_some found
    subst same
    exact rest.short (List.mem_of_find?_eq_some found)
  | none =>
    have other : ∀ entry ∈ shortEscapes, ¬(entry.1 == u) = true := List.find?_eq_none.mp found
    by_cases control : u < 0x20
    · simpa [control] using rest.numeric u
    · have notQuote : u ≠ quoteMark :=
        fun same => other (quoteMark, '"') (by decide) (by simp [same])
      have notEscape : u ≠ escapeMark :=
        fun same => other (escapeMark, '\\') (by decide) (by simp [same])
      simpa [control] using rest.plain notQuote notEscape control

/-- Half of a pair is no mark and no control character, so it may stand for itself. -/
theorem Escaped.half (isHalf : (u.isHighSurrogate || u.isLowSurrogate) = true)
    (rest : Escaped inside units) : Escaped (u :: inside) (u :: units) := by
  have large : 0xD800 ≤ u.toNat := by
    simp only [CodeUnit.isHighSurrogate, CodeUnit.isLowSurrogate, Bool.or_eq_true, Bool.and_eq_true,
      decide_eq_true_eq, UInt16.le_iff_toNat_le] at isHalf
    have first : (0xD800 : UInt16).toNat = 0xD800 := rfl
    have second : (0xDC00 : UInt16).toNat = 0xDC00 := rfl
    omega
  have different (mark : CodeUnit) (small : mark.toNat < 0xD800) : u ≠ mark := by
    rintro rfl
    omega
  refine rest.plain (different _ (by decide)) (different _ (by decide)) fun control => ?_
  have few : u.toNat < 0x20 := control
  omega

/-- A text is spelled by how it is escaped, whatever units it has. -/
theorem escaped_escapeUnits (units : Text) : Escaped (escapeUnits units) units := by
  induction units using escapeUnits.induct with
  | case1 => exact .nil
  | case2 u isHalf =>
    rw [escapeUnits, if_pos isHalf, ← (numericEscape u).append_nil]
    exact Escaped.nil.numeric u
  | case3 u whole =>
    rw [escapeUnits, if_neg whole, ← (escapeUnit u).append_nil]
    exact Escaped.nil.unit u
  | case4 u v rest pair ih =>
    obtain ⟨isHigh, isLow⟩ := Bool.and_eq_true_iff.mp pair
    rw [escapeUnits, if_pos pair]
    exact (ih.half (by simp [isLow])).half (by simp [isHigh])
  | case5 u v rest alone isHalf ih =>
    rw [escapeUnits, if_neg alone, if_pos isHalf]
    exact ih.numeric u
  | case6 u v rest alone whole ih =>
    rw [escapeUnits, if_neg alone, if_neg whole]
    exact ih.unit u

/-! ## Reading between quotes -/

namespace Reader

/-- The units that are spelled are read, whatever follows. -/
theorem stringUnits?_escaped (escaped : Escaped inside units) (rest : Text) :
    stringUnits? (inside ++ rest) = (stringUnits? rest).map fun read =>
      (units ++ read.1, read.2) := by
  have isMark : escapeMark = .ofChar '\\' := rfl
  induction escaped with
  | nil => simp
  | @plain u inside units notQuote notEscape notControl _ ih =>
    have first : stringUnits? (u :: (inside ++ rest)) =
        (stringUnits? (inside ++ rest)).map fun read => (u :: read.1, read.2) := by
      rw [stringUnits?.eq_def]
      exact (if_neg notQuote).trans ((if_neg notControl).trans (if_neg notEscape))
    rw [List.cons_append, first, ih, Option.map_map]
    rfl
  | @short u letter inside units isShort _ ih =>
    obtain ⟨spelled, notNumeric, found⟩ := shortEscape_spec isShort
    have first : stringUnits? (escapeMark :: .ofChar letter :: (inside ++ rest)) =
        (stringUnits? (inside ++ rest)).map fun read => (u :: read.1, read.2) := by
      rw [stringUnits?.eq_def]
      dsimp only
      rw [if_neg (by decide), if_neg (by decide), if_pos isMark, if_neg notNumeric, found]
    rw [spelled, List.append_assoc, List.cons_append, List.singleton_append, first, ih,
      Option.map_map]
    rfl
  | @numeric u inside units _ ih =>
    obtain ⟨length, isHexadecimal, value⟩ := hexDigits_spec u
    have unit : u.toNat.toUInt16 = u := UInt16.ofNat_toNat
    have front : (hexDigits u ++ (inside ++ rest)).take 4 = hexDigits u := List.take_left' length
    have behind : (hexDigits u ++ (inside ++ rest)).drop 4 = inside ++ rest :=
      List.drop_left' length
    have first : stringUnits? (escapeMark :: .ofChar 'u' :: (hexDigits u ++ (inside ++ rest))) =
        (stringUnits? (inside ++ rest)).map fun read => (u :: read.1, read.2) := by
      rw [stringUnits?.eq_def]
      dsimp only
      rw [if_neg (by decide), if_neg (by decide), if_pos isMark, if_pos rfl, front, behind,
        if_pos ⟨length, isHexadecimal⟩, value, unit]
    have spelled : numericEscape u ++ (inside ++ rest) = escapeMark :: .ofChar 'u' ::
          (hexDigits u ++ (inside ++ rest)) := rfl
    rw [List.append_assoc, spelled, first, ih, Option.map_map]
    rfl

/-- A text is read back from between its quotes. -/
theorem string?_quote (units rest : Text) : string? (quote units ++ rest) = some (units, rest) := by
  have spelled : quote units ++ rest = quoteMark :: (escapeUnits units ++ quoteMark :: rest) := by
    rw [quote, List.append_assoc, List.append_assoc]
    rfl
  have ends : stringUnits? (quoteMark :: rest) = some ([], rest) := by
    rw [stringUnits?.eq_def]
    exact if_pos rfl
  have inside : word? "\"" (quoteMark :: (escapeUnits units ++ quoteMark :: rest)) =
      some (escapeUnits units ++ quoteMark :: rest) := rfl
  rw [spelled, string?, inside, Option.bind_eq_bind, Option.bind_some,
    stringUnits?_escaped (escaped_escapeUnits units), ends]
  simp

end Reader

end Json

end Marginalia
