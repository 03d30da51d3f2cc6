import Marginalia.Decimal.Binary64
import Marginalia.Numeral

/-!
# Literals

Numbers are kept by value together with the form they were written in. The text of strings and
characters is kept as written, escapes included.
-/

namespace Marginalia

/-- The two forms of a whole number. -/
inductive IntegerForm where
  | decimal
  | hexadecimal
deriving DecidableEq, Repr, Inhabited

/-- The two forms of a floating-point number. -/
inductive FloatForm where
  | decimal
  | exponent
deriving DecidableEq, Repr, Inhabited

/-- A literal. -/
inductive Literal where
  | integer (value : Int) (form : IntegerForm)
  | float (value : Binary64) (form : FloatForm)
  | character (text : Text)
  | string (text : Text) (multiline : Bool)
  | boolean (value : Bool)
deriving DecidableEq, Repr, Inhabited

/-- The floating-point number nearest to what a text spells, if it spells a number. -/
def Literal.floating (lexeme : Text) : Binary64 :=
  ((Numeral.decimal? lexeme).map Binary64.ofDecimal).getD Binary64.nan

/-- The literal of a number token. A spelling that begins with the mark of base sixteen is an
integer; so is any other one that has neither an exponent's letter nor a point. There is none where
the text spells no integer. -/
def Literal.ofNumber? (lexeme : Text) : Option Literal :=
  if Numeral.markedBase? lexeme = some 16 then
    (Numeral.integer? lexeme).map (.integer · .hexadecimal)
  else if lexeme.any (fun u => u == .ofChar 'e' || u == .ofChar 'E') then
    some (.float (floating lexeme) .exponent)
  else if lexeme.any (· == .ofChar '.') then
    some (.float (floating lexeme) .decimal)
  else
    (Numeral.integer? lexeme).map (.integer · .decimal)

/-- The literal of a string token: what stands between its quotes. -/
def Literal.ofString (lexeme : Text) : Literal :=
  if (Text.ofString "\"\"\"").isPrefixOf lexeme then
    .string (lexeme.trimEnds 3 3) true
  else
    .string (lexeme.trimEnds 1 1) false

/-- The literal of a character token: what stands between its quotes. -/
def Literal.ofCharacter (lexeme : Text) : Literal := .character (lexeme.trimEnds 1 1)

/-- The greatest precedence an operator can be declared with. -/
def maxPrecedence : Nat := 9

/-- The precedence a number token stands for: any spelling of a whole number from zero to nine. -/
def precedenceOf? (lexeme : Text) : Option Nat :=
  let value :=
    match Literal.ofNumber? lexeme with
    | some (.integer value _) => value.toNat?
    | some (.float value _) => value.toNat?
    | _ => none
  value.filter (· ≤ maxPrecedence)

end Marginalia
