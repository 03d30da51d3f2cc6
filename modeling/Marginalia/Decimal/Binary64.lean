import Marginalia.Decimal

/-!
# Numbers of 64 bits in base two

A floating-point literal stands for the 64-bit number nearest to what is written, and of two equally
near ones for that with the even significand. Reading goes from exact whole numbers to bits and
printing from bits to the fewest decimal digits that read back; no arithmetic of the machine is
involved.
-/

namespace Marginalia

/-- A number in the interchange format of 64 bits: a sign, 11 bits of exponent and 52 of
fraction. -/
structure Binary64 where
  /-- The bits, sign first. -/
  bits : UInt64
deriving DecidableEq, Repr, Inhabited

namespace Binary64

/-- Positive infinity. -/
def infinity : Binary64 := ⟨0x7ff0000000000000⟩

/-- The result of reading what is no number. -/
def nan : Binary64 := ⟨0x7ff8000000000000⟩

/-- The value of the sign's bit. -/
def signBit : Nat := 0x8000000000000000

/-- The value of the first bit of a significand of 53 bits, which is not written down. -/
def hiddenBit : Nat := 0x10000000000000

/-- The bits without the sign, as a whole number. -/
def magnitude (x : Binary64) : Nat := x.bits.toNat % signBit

/-- The number carries a minus sign. -/
def isNegative (x : Binary64) : Bool := signBit ≤ x.bits.toNat

/-- The number is neither infinite nor undefined. -/
def isFinite (x : Binary64) : Bool := x.magnitude < 0x7ff0000000000000

/-- The significand of a finite number. -/
def significand (x : Binary64) : Nat :=
  if x.magnitude < hiddenBit then x.magnitude else hiddenBit + x.magnitude % hiddenBit

/-- The power of two by which the significand of a finite number is scaled. -/
def power (x : Binary64) : Int :=
  if x.magnitude < hiddenBit then -1074 else ((x.magnitude / hiddenBit : Nat) : Int) - 1075

/-- The quotient of two whole numbers rounded to the nearest one, a half to the even neighbour. -/
def roundQuotient (numerator denominator : Nat) : Nat :=
  let quotient := numerator / denominator
  let twice := 2 * (numerator % denominator)
  if denominator < twice ∨ (twice = denominator ∧ quotient % 2 = 1) then quotient + 1 else quotient

/-- The quotient of `numerator` by `denominator · 2 ^ power`, rounded. -/
def roundScaled (numerator denominator : Nat) (power : Int) : Nat :=
  if 0 ≤ power then roundQuotient numerator (denominator * Nat.pow 2 power.toNat)
  else roundQuotient (numerator * Nat.pow 2 (-power).toNat) denominator

/-- The nearest number to a positive quotient. The power is chosen so that the significand has 53
bits, or is the least there is; a significand that rounds up to 54 bits carries into the exponent by
itself. -/
def ofRatio (numerator denominator : Nat) : Binary64 :=
  if numerator = 0 then ⟨0⟩
  else
    let estimate : Int := (numerator.log2 : Int) - denominator.log2 - 52
    let short : Bool :=
      if 0 ≤ estimate then numerator < denominator * Nat.pow 2 (52 + estimate.toNat)
      else numerator * Nat.pow 2 (-estimate).toNat < denominator * hiddenBit
    let power := max (if short then estimate - 1 else estimate) (-1074)
    let bits := (power + 1074).toNat * hiddenBit + roundScaled numerator denominator power
    if bits < 0x7ff0000000000000 then ⟨bits.toUInt64⟩ else infinity

/-- The number with the sign changed to minus. -/
def negate (x : Binary64) : Binary64 := ⟨x.bits ||| 0x8000000000000000⟩

/-- The nearest number to a decimal. Powers of ten far outside the range of the format are not
computed. -/
def ofDecimal (d : Decimal) : Binary64 :=
  let absolute :=
    if d.digits = 0 ∨ d.exponent + d.digits.log2 + 1 < -400 then ⟨0⟩
    else if 400 < d.exponent then infinity
    else if 0 ≤ d.exponent then ofRatio (d.digits * Nat.pow 10 d.exponent.toNat) 1
    else ofRatio d.digits (Nat.pow 10 (-d.exponent).toNat)
  if d.negative then negate absolute else absolute

/-- The whole number that a finite number is equal to, if it is one and not below zero. -/
def toNat? (x : Binary64) : Option Nat :=
  if !x.isFinite then none
  else if x.significand = 0 then some 0
  else if x.isNegative then none
  else if 0 ≤ x.power then some (x.significand * Nat.pow 2 x.power.toNat)
  else
    let divisor := Nat.pow 2 (-x.power).toNat
    if x.significand % divisor = 0 then some (x.significand / divisor) else none

/-- The numbers that read as a given one: those between two ends over a common denominator. -/
structure Interval where
  /-- Four times the value itself, scaled by the denominator. -/
  value : Nat
  /-- The lower end, halfway to the number below. -/
  low : Nat
  /-- The upper end, halfway to the number above. -/
  high : Nat
  /-- What the three are divided by. -/
  denominator : Nat
  /-- The ends read as the number too. -/
  closed : Bool

/-- The numbers that read as a finite positive number. Just above a power of two the number below is
only half as far away as the number above. -/
def interval (x : Binary64) : Interval :=
  let m := x.significand
  let unit := Nat.pow 2 x.power.toNat
  let below := if m = hiddenBit ∧ -1074 < x.power then 1 else 2
  ⟨4 * m * unit, (4 * m - below) * unit, (4 * m + 2) * unit,
    4 * Nat.pow 2 (-x.power).toNat, m % 2 == 0⟩

namespace Interval

/-- The power of ten of the first digit of the value. -/
def leadingPower (i : Interval) : Int :=
  if i.denominator ≤ i.value then
    ((Nat.toDigits 10 (i.value / i.denominator)).length : Int) - 1
  else
    -(Nat.toDigits 10 ((i.denominator - 1) / i.value)).length

/-- A pair whose quotient is the given end divided by `10 ^ grid`. -/
def scaled (i : Interval) (grid : Int) (part : Nat) : Nat × Nat :=
  if 0 ≤ grid then (part, i.denominator * Nat.pow 10 grid.toNat)
  else (part * Nat.pow 10 (-grid).toNat, i.denominator)

/-- The multiple `digits · 10 ^ grid` reads as the value. -/
def contains (i : Interval) (grid : Int) (digits : Nat) : Bool :=
  let (low, denominator) := i.scaled grid i.low
  let (high, _) := i.scaled grid i.high
  let point := digits * denominator
  (low < point && point < high) || (i.closed && (low == point || high == point))

/-- The multiple of `10 ^ grid` nearest to the value among those that read as it, an even one of
two. -/
def nearest? (i : Interval) (grid : Int) : Option Nat :=
  let (value, denominator) := i.scaled grid i.value
  let below := value / denominator
  match i.contains grid below, i.contains grid (below + 1) with
  | true, true => some (roundQuotient value denominator)
  | true, false => some below
  | false, true => some (below + 1)
  | false, false => none

/-- The first grid, from coarse to fine, that has a multiple reading as the value. -/
def shortest (i : Interval) (grid : Int) : Nat → Decimal
  | 0 => ⟨false, i.value / i.denominator, 0⟩
  | finer + 1 =>
    match i.nearest? grid with
    | some digits => ⟨false, digits, grid⟩
    | none => i.shortest (grid - 1) finer

end Interval

/-- The decimal with the fewest digits that reads back as a finite number; seventeen always
suffice. -/
def shortest (x : Binary64) : Decimal :=
  if x.significand = 0 then ⟨false, 0, 0⟩
  else
    let i := x.interval
    { i.shortest i.leadingPower 17 with negative := x.isNegative }

end Binary64

end Marginalia
