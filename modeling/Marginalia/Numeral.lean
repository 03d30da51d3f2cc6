import Marginalia.Decimal
import Marginalia.Text.Blank

/-!
# Numerals

The spellings of numbers that a number token may have. White space around a numeral is ignored. A
zero and a letter mark the bases two, eight and sixteen, and such a numeral has no sign; other
numerals are in base ten. The tokens of a source have only some of these spellings.
-/

namespace Marginalia.Numeral

/-- The bases that are marked, with the letter that follows the zero. -/
def markedBases : List (Char × Nat) :=
  [('b', 2), ('B', 2), ('o', 8), ('O', 8), ('x', 16), ('X', 16)]

/-- The base that the first two units mark. -/
def markedBase? (text : Text) : Option Nat :=
  (markedBases.find? fun entry => (Text.ofChars ['0', entry.1]).isPrefixOf text).map (·.2)

/-- The unit is a digit in a base up to sixteen. -/
def isDigitIn (base : Nat) (u : CodeUnit) : Bool := u.isHexDigit && u.digitValue < base

/-- The value of one or more digits in a base. -/
def digits? (base : Nat) (text : Text) : Option Nat :=
  if text ≠ [] ∧ text.all (isDigitIn base) then some (Decimal.valueOf base text) else none

/-- The value of a numeral whose base is marked. -/
def marked? (text : Text) : Option Nat := do
  let base ← markedBase? text
  digits? base (text.drop 2)

/-- The value of digits in base ten with an optional sign. -/
def signed? (text : Text) : Option Int :=
  let (negative, digits) := Decimal.splitSign text
  (digits? 10 digits).map fun (value : Nat) => if negative then -(value : Int) else value

/-- The integer that a text spells; nothing but white space spells zero. -/
def integer? (text : Text) : Option Int :=
  let numeral := text.trim
  if numeral = [] then some 0 else (marked? numeral).map Int.ofNat <|> signed? numeral

/-- The number that a text with a point or an exponent spells, before any rounding. -/
def decimal? (text : Text) : Option Decimal :=
  let numeral := text.trim
  (marked? numeral).map (fun value => ⟨false, value, 0⟩) <|> Decimal.read? numeral

end Marginalia.Numeral
