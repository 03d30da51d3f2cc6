import Marginalia.Text

/-!
# Decimal numbers as written

A decimal number is a whole number of tenths, hundredths and so on: digits scaled by a power of ten.
Nothing is rounded when one is read. Its text is positional when the point stands near the digits,
and in powers of ten otherwise.
-/

namespace Marginalia

/-- The number `± digits · 10 ^ exponent`. -/
structure Decimal where
  /-- The number carries a minus sign. -/
  negative : Bool
  /-- The digits, read as a whole number. -/
  digits : Nat
  /-- The power of ten the digits are scaled by. -/
  exponent : Int
deriving DecidableEq, Repr, Inhabited

namespace Decimal

/-- The value of a run of digits in a base. -/
def valueOf (base : Nat) (digits : Text) : Nat :=
  digits.foldl (fun value u => base * value + u.digitValue) 0

/-- Whether a minus sign stands at the front, and the text after a sign of either kind. -/
def splitSign (text : Text) : Bool × Text :=
  let negative := text.head? == some (.ofChar '-')
  let signed := negative || text.head? == some (.ofChar '+')
  (negative, if signed then text.drop 1 else text)

/-- Reads a signed exponent: an optional sign and at least one digit. -/
def readExponent? (text : Text) : Option Int :=
  let (negative, digits) := splitSign text
  if digits ≠ [] ∧ digits.all CodeUnit.isDigit then
    some (if negative then -(valueOf 10 digits : Int) else valueOf 10 digits)
  else
    none

/-- The digits of a fraction after its point, and what follows them; no digits where no point
stands. -/
def splitFraction : Text → Text × Text
  | [] => ([], [])
  | point :: rest =>
    if point = CodeUnit.ofChar '.' then
      (rest.takeWhile CodeUnit.isDigit, rest.dropWhile CodeUnit.isDigit)
    else ([], point :: rest)

/-- The power of ten that the end of a number stands for: none at all, or a mark and an exponent. -/
def readPower? : Text → Option Int
  | [] => some 0
  | mark :: rest =>
    if mark = CodeUnit.ofChar 'e' ∨ mark = CodeUnit.ofChar 'E' then readExponent? rest else none

/-- Reads an unsigned number: digits with at most one point before, among or after them, then
perhaps an exponent. There has to be a digit before the exponent. -/
def readUnsigned? (text : Text) : Option Decimal :=
  let whole := text.takeWhile CodeUnit.isDigit
  let (fraction, rest) := splitFraction (text.dropWhile CodeUnit.isDigit)
  if whole ++ fraction = [] then none
  else
    (readPower? rest).map fun power =>
      ⟨false, valueOf 10 (whole ++ fraction), power - fraction.length⟩

/-- Reads a number with an optional sign. -/
def read? (text : Text) : Option Decimal :=
  let (negative, unsigned) := splitSign text
  (readUnsigned? unsigned).map fun number => { number with negative := negative }

/-- Digits without the zeros at their end, and the power of ten those zeros stood for. -/
def stripZeros : Nat → Nat → Nat × Nat
  | 0, digits => (digits, 0)
  | fuel + 1, digits =>
    if digits ≠ 0 ∧ digits % 10 = 0 then
      let (stripped, zeros) := stripZeros fuel (digits / 10)
      (stripped, zeros + 1)
    else (digits, 0)

/-- The text of a number. With `point` digits before the decimal point, the number is written
positionally from `point = -5` up to `point = 21`, and as one digit, a fraction and a signed power
of ten beyond. -/
def render (number : Decimal) : Text :=
  let (stripped, zeros) := stripZeros number.digits number.digits
  let digits := Text.ofNat stripped
  let count : Int := digits.length
  let point : Int := count + zeros + number.exponent
  let padding (n : Int) : Text := List.replicate n.toNat (.ofChar '0')
  let sign : Text := if number.negative then "-" else ""
  if stripped = 0 then "0"
  else if count ≤ point ∧ point ≤ 21 then
    sign ++ digits ++ padding (point - count)
  else if 0 < point ∧ point ≤ 21 then
    sign ++ digits.take point.toNat ++ "." ++ digits.drop point.toNat
  else if -6 < point ∧ point ≤ 0 then
    sign ++ "0." ++ padding (-point) ++ digits
  else
    let power := point - 1
    let fraction : Text := if count = 1 then "" else "." ++ digits.drop 1
    let powerSign : Text := if power < 0 then "-" else "+"
    sign ++ digits.take 1 ++ fraction ++ "e" ++ powerSign ++ Text.ofNat power.natAbs

end Decimal

end Marginalia
