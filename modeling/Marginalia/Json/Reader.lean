import Marginalia.Json

/-!
# Reading JSON

The strict grammar: no comments, no trailing commas, no byte order mark, and nothing but blanks
around the value. Each function takes what it needs from the front of the text and gives the rest.
-/

namespace Marginalia.Json.Reader

/-- The units that may stand between the parts of a value. -/
def isBlank (u : CodeUnit) : Bool := u == 0x20 || u == 0x09 || u == 0x0A || u == 0x0D

/-- The text without the blanks at its front. -/
def skipBlanks (text : Text) : Text := text.dropWhile isBlank

/-- The text after a word at its front. -/
def word? (word : String) (text : Text) : Option Text :=
  let units := Text.ofString word
  if units.isPrefixOf text then some (text.drop units.length) else none

/-- Digits at the front, of which there has to be one. -/
def digits? (text : Text) : Option (Text × Text) :=
  let digits := text.takeWhile CodeUnit.isDigit
  if digits = [] then none else some (digits, text.drop digits.length)

/-- The whole part of a number, which has no needless zero at its front. -/
def whole? (text : Text) : Option (Text × Text) := do
  let (digits, rest) ← digits? text
  if digits.head? = some (.ofChar '0') ∧ digits.length ≠ 1 then none else some (digits, rest)

/-- A point and digits, or nothing. -/
def fraction? (text : Text) : Option (Text × Text) :=
  match word? "." text with
  | some rest => digits? rest
  | none => some ([], text)

/-- A mark, a sign and digits, or nothing. -/
def exponent? (text : Text) : Option (Option Int × Text) :=
  match word? "e" text <|> word? "E" text with
  | none => some (none, text)
  | some rest => do
    let negative := (word? "-" rest).isSome
    let (digits, rest) ← digits? ((word? "-" rest <|> word? "+" rest).getD rest)
    let power : Int := Decimal.valueOf 10 digits
    some (some (if negative then -power else power), rest)

/-- A number: natural when it has neither sign nor fraction nor exponent. -/
def number? (text : Text) : Option (Json × Text) := do
  let unsigned := word? "-" text
  let (whole, rest) ← whole? (unsigned.getD text)
  let (fraction, rest) ← fraction? rest
  let (power, rest) ← exponent? rest
  if unsigned.isNone ∧ fraction = [] ∧ power = none then
    some (.natural (Decimal.valueOf 10 whole), rest)
  else
    some (.real ⟨unsigned.isSome, Decimal.valueOf 10 (whole ++ fraction),
      power.getD 0 - fraction.length⟩, rest)

/-- The units that escapes of one letter stand for. -/
def shortEscape? (letter : CodeUnit) : Option CodeUnit :=
  if letter = .ofChar '/' then some letter
  else (shortEscapes.find? fun entry => CodeUnit.ofChar entry.2 == letter).map (·.1)

/-- The inside of a string up to its closing quote. -/
def stringUnits? (text : Text) : Option (Text × Text) :=
  match text with
  | [] => none
  | u :: rest =>
    if u = .ofChar '"' then some ([], rest)
    else if u < 0x20 then none
    else if u = .ofChar '\\' then
      match rest with
      | [] => none
      | letter :: rest =>
        if letter = .ofChar 'u' then
          let digits := rest.take 4
          if digits.length = 4 ∧ digits.all CodeUnit.isHexDigit then
            (stringUnits? (rest.drop 4)).map fun (units, rest) =>
              ((Decimal.valueOf 16 digits).toUInt16 :: units, rest)
          else none
        else
          match shortEscape? letter with
          | none => none
          | some unit => (stringUnits? rest).map fun (units, rest) => (unit :: units, rest)
    else
      (stringUnits? rest).map fun (units, rest) => (u :: units, rest)
termination_by text.length

/-- A string with its quotes. -/
def string? (text : Text) : Option (Text × Text) := word? "\"" text >>= stringUnits?

mutual

/-- A value with at most so many parts, blanks around it included. -/
def value? (parts : Nat) (text : Text) : Option (Json × Text) :=
  match parts with
  | 0 => none
  | parts + 1 => do
    let text := skipBlanks text
    let (value, rest) ←
      match text.head? with
      | none => none
      | some first =>
        if first = .ofChar 'n' then (word? "null" text).map (.null, ·)
        else if first = .ofChar 't' then (word? "true" text).map (.bool true, ·)
        else if first = .ofChar 'f' then (word? "false" text).map (.bool false, ·)
        else if first = .ofChar '"' then (string? text).map fun (units, rest) =>
          (.string units, rest)
        else if first = .ofChar '[' then
          let inside := skipBlanks (text.drop 1)
          match word? "]" inside with
          | some rest => some (.array [], rest)
          | none => (elements? parts inside).map fun (elements, rest) => (.array elements, rest)
        else if first = .ofChar '\x7b' then
          let inside := skipBlanks (text.drop 1)
          match word? "\x7d" inside with
          | some rest => some (.object [], rest)
          | none => (members? parts inside).map fun (members, rest) => (.object members, rest)
        else number? text
    some (value, skipBlanks rest)

/-- The elements of an array that has some, up to its closing bracket. -/
def elements? (parts : Nat) (text : Text) : Option (List Json × Text) :=
  match parts with
  | 0 => none
  | parts + 1 => do
    let (element, rest) ← value? parts text
    match word? "," rest with
    | some rest =>
      let (elements, rest) ← elements? parts rest
      some (element :: elements, rest)
    | none =>
      let rest ← word? "]" rest
      some ([element], rest)

/-- The members of an object that has some, up to its closing brace. -/
def members? (parts : Nat) (text : Text) : Option (List (Text × Json) × Text) :=
  match parts with
  | 0 => none
  | parts + 1 => do
    let (key, rest) ← string? (skipBlanks text)
    let rest ← word? ":" (skipBlanks rest)
    let (value, rest) ← value? parts rest
    match word? "," rest with
    | some rest =>
      let (members, rest) ← members? parts rest
      some ((key, value) :: members, rest)
    | none =>
      let rest ← word? "\x7d" rest
      some ([(key, value)], rest)

end

end Marginalia.Json.Reader

namespace Marginalia

/-- Reads a JSON text; none when it is not one. A value has fewer parts than twice its units. -/
def Json.read? (text : Text) : Option Json := do
  let (value, rest) ← Json.Reader.value? (2 * text.length + 2) text
  if rest = [] then some value else none

end Marginalia
