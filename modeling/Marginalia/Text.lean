/-!
# Text as sequences of UTF-16 code units

Every offset, column and slice of this library counts UTF-16 code units, and a message may show half
of a surrogate pair. A text is therefore a list of code units and not a `String`; the two meet only
where text enters or leaves the library. An unpaired surrogate leaves as the replacement character.
-/

namespace Marginalia

/-- One UTF-16 code unit. -/
abbrev CodeUnit := UInt16

/-- The code unit of a character outside the supplementary planes. -/
def CodeUnit.ofChar (c : Char) : CodeUnit := c.val.toUInt16

/-- The first half of a surrogate pair. -/
def CodeUnit.isHighSurrogate (u : CodeUnit) : Bool := 0xD800 ≤ u && u ≤ 0xDBFF

/-- The second half of a surrogate pair. -/
def CodeUnit.isLowSurrogate (u : CodeUnit) : Bool := 0xDC00 ≤ u && u ≤ 0xDFFF

/-- The decimal digits. -/
def CodeUnit.isDigit (u : CodeUnit) : Bool := .ofChar '0' ≤ u && u ≤ .ofChar '9'

/-- The decimal digits and the letters up to `f` in either case. -/
def CodeUnit.isHexDigit (u : CodeUnit) : Bool :=
  u.isDigit || (.ofChar 'a' ≤ u && u ≤ .ofChar 'f') || (.ofChar 'A' ≤ u && u ≤ .ofChar 'F')

/-- The value of a digit in base ten or sixteen. -/
def CodeUnit.digitValue (u : CodeUnit) : Nat :=
  if u.isDigit then u.toNat - 48
  else if .ofChar 'a' ≤ u then u.toNat - 87
  else u.toNat - 55

/-- A sequence of UTF-16 code units, surrogates paired or not. -/
abbrev Text := List CodeUnit

namespace Text

/-- The one or two code units of a character. -/
def ofChar (c : Char) : Text :=
  if c.toNat < 0x10000 then
    [CodeUnit.ofChar c]
  else
    let rest := c.toNat - 0x10000
    [(0xD800 + rest / 0x400).toUInt16, (0xDC00 + rest % 0x400).toUInt16]

/-- The code units of a list of characters. -/
def ofChars (characters : List Char) : Text := characters.flatMap ofChar

/-- The code units of a string. -/
def ofString (s : String) : Text := ofChars s.toList

instance : Coe String Text := ⟨ofString⟩

/-- The decimal digits of a number. -/
def ofNat (n : Nat) : Text := ofChars (Nat.toDigits 10 n)

/-- The decimal digits of an integer, after a minus sign where it is negative. -/
def ofInt (n : Int) : Text := (if n < 0 then ofString "-" else []) ++ ofNat n.natAbs

/-- The characters of a text; a surrogate without its other half becomes the replacement
character. -/
def toChars : Text → List Char
  | [] => []
  | [u] => if u.isHighSurrogate || u.isLowSurrogate then ['\uFFFD'] else [Char.ofNat u.toNat]
  | u :: v :: rest =>
    if u.isHighSurrogate && v.isLowSurrogate then
      Char.ofNat (0x10000 + (u.toNat - 0xD800) * 0x400 + (v.toNat - 0xDC00)) :: toChars rest
    else if u.isHighSurrogate || u.isLowSurrogate then
      '\uFFFD' :: toChars (v :: rest)
    else
      Char.ofNat u.toNat :: toChars (v :: rest)

/-- The string of a text, with replacement characters for unpaired surrogates. -/
def toString (text : Text) : String := String.ofList text.toChars

/-- The pieces of a text between the occurrences of a separator; always at least one. -/
def split (separator : CodeUnit) : Text → List Text
  | [] => [[]]
  | u :: rest =>
    if u = separator then
      [] :: split separator rest
    else
      match split separator rest with
      | [] => [[u]]
      | piece :: pieces => (u :: piece) :: pieces

/-- The code unit that ends a line. -/
def newline : CodeUnit := CodeUnit.ofChar '\n'

/-- The code unit of a carriage return. -/
def carriageReturn : CodeUnit := CodeUnit.ofChar '\r'

/-- The lines of a text. A carriage return before a line break stays in its line. -/
def lines (text : Text) : List Text := text.split newline

/-- The units from `start` up to `stop`; empty when `stop` is not after `start`. -/
def slice (text : Text) (start stop : Nat) : Text := (text.drop start).take (stop - start)

/-- The text without its first `front` and its last `back` units; empty when it is shorter than
both. -/
def trimEnds (text : Text) (front back : Nat) : Text :=
  (text.drop front).take (text.length - front - back)

/-- Some line break occurs in the text. -/
def hasNewline (text : Text) : Bool := text.contains newline

/-- Splitting gives at least one piece. -/
theorem split_ne_nil (separator : CodeUnit) (text : Text) : text.split separator ≠ [] := by
  induction text with
  | nil => simp [split]
  | cons u rest _ =>
    unfold split
    split
    · simp
    · split <;> simp

end Text

end Marginalia
