import Marginalia.Text

/-!
# Characters of texts

A text that was made of characters has these characters and no others, so strings that become the
same text are the same.
-/

namespace Marginalia.Text

/-- Two halves of a pair are read as one character. -/
theorem toChars_pair {u v : CodeUnit} (isHigh : u.isHighSurrogate = true)
    (isLow : v.isLowSurrogate = true) (rest : Text) :
    toChars (u :: v :: rest) = Char.ofNat
      (0x10000 + (u.toNat - 0xD800) * 0x400 + (v.toNat - 0xDC00)) :: rest.toChars := by
  rw [toChars, isHigh, isLow]
  rfl

/-- The units of a character at the front of a text are read as the character. -/
theorem toChars_ofChar_append (c : Char) (rest : Text) :
    (ofChar c ++ rest).toChars = c :: rest.toChars := by
  have valid : c.toNat < 0xD800 ∨ 0xDFFF < c.toNat ∧ c.toNat < 0x110000 := c.valid
  have firstHigh : (0xD800 : UInt16).toNat = 0xD800 := rfl
  have lastHigh : (0xDBFF : UInt16).toNat = 0xDBFF := rfl
  have firstLow : (0xDC00 : UInt16).toNat = 0xDC00 := rfl
  have lastLow : (0xDFFF : UInt16).toNat = 0xDFFF := rfl
  rw [ofChar]
  by_cases small : c.toNat < 0x10000
  · have unit : (CodeUnit.ofChar c).toNat = c.toNat := by
      have whole : (CodeUnit.ofChar c).toNat = c.toNat % 0x10000 := UInt32.toNat_toUInt16 c.val
      omega
    have notHigh : (CodeUnit.ofChar c).isHighSurrogate = false := by
      simp only [CodeUnit.isHighSurrogate, Bool.and_eq_false_iff, decide_eq_false_iff_not,
        UInt16.le_iff_toNat_le]
      omega
    have notLow : (CodeUnit.ofChar c).isLowSurrogate = false := by
      simp only [CodeUnit.isLowSurrogate, Bool.and_eq_false_iff, decide_eq_false_iff_not,
        UInt16.le_iff_toNat_le]
      omega
    rw [if_pos small]
    cases rest with
    | nil => simp [toChars, notHigh, notLow, unit]
    | cons v others => simp [toChars, notHigh, notLow, unit]
  · have high : (0xD800 + (c.toNat - 0x10000) / 0x400).toUInt16.toNat =
        0xD800 + (c.toNat - 0x10000) / 0x400 :=
      UInt16.toNat_ofNat_of_lt' (by show _ < 65536; omega)
    have low : (0xDC00 + (c.toNat - 0x10000) % 0x400).toUInt16.toNat =
          0xDC00 + (c.toNat - 0x10000) % 0x400 :=
      UInt16.toNat_ofNat_of_lt' (by show _ < 65536; omega)
    have isHigh :
        CodeUnit.isHighSurrogate (0xD800 + (c.toNat - 0x10000) / 0x400).toUInt16 = true := by
      simp only [CodeUnit.isHighSurrogate, Bool.and_eq_true, decide_eq_true_eq,
        UInt16.le_iff_toNat_le]
      omega
    have isLow :
        CodeUnit.isLowSurrogate (0xDC00 + (c.toNat - 0x10000) % 0x400).toUInt16 = true := by
      simp only [CodeUnit.isLowSurrogate, Bool.and_eq_true, decide_eq_true_eq,
        UInt16.le_iff_toNat_le]
      omega
    have number : 0x10000 + (0xD800 + (c.toNat - 0x10000) / 0x400 - 0xD800) * 0x400 +
        (0xDC00 + (c.toNat - 0x10000) % 0x400 - 0xDC00) = c.toNat := by omega
    rw [if_neg small]
    exact (toChars_pair isHigh isLow rest).trans (by rw [high, low, number, Char.ofNat_toNat])

/-- A text that was made of characters has these characters. -/
theorem toChars_ofChars (characters : List Char) : (ofChars characters).toChars = characters := by
  induction characters with
  | nil => rfl
  | cons c rest ih => rw [ofChars, List.flatMap_cons, ← ofChars, toChars_ofChar_append, ih]

/-- Strings with the same text are the same. -/
theorem ofString_inj {s t : String} : ofString s = ofString t ↔ s = t := by
  constructor
  · intro same
    have characters : s.toList = t.toList := by
      rw [← toChars_ofChars s.toList, ← toChars_ofChars t.toList]
      exact congrArg toChars same
    exact String.toList_injective characters
  · exact fun same => same ▸ rfl

end Marginalia.Text
