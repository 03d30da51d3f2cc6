import Marginalia.Decimal
import Marginalia.Keyed

/-!
# JSON

Values of the interchange format and their text. Natural numbers are apart from other numbers
because counts and positions are natural. An object keeps its members as they were written.
-/

namespace Marginalia

/-- A JSON value. -/
inductive Json where
  | null
  | bool (value : Bool)
  | natural (value : Nat)
  | real (value : Decimal)
  | string (value : Text)
  | array (elements : List Json)
  | object (members : List (Text × Json))
deriving Inhabited, Repr

namespace Json

/-- A string value. -/
def text (value : String) : Json := .string value

/-- An object with members in the given order. -/
def fields (members : List (String × Json)) : Json :=
  .object (members.map fun member => (Text.ofString member.1, member.2))

/-- The members of an object, the last of those with one key, in member order. -/
def members? : Json → Option (Keyed Json)
  | object members => some (Keyed.ofList members).inMemberOrder
  | _ => none

/-- Four hexadecimal digits of a code unit. -/
def hexDigits (u : CodeUnit) : Text :=
  let digits := Nat.toDigits 16 u.toNat
  Text.ofChars (List.replicate (4 - digits.length) '0' ++ digits)

/-- The units that have an escape of one letter. -/
def shortEscapes : List (CodeUnit × Char) :=
  [(.ofChar '"', '"'), (.ofChar '\\', '\\'), (8, 'b'), (9, 't'), (10, 'n'), (12, 'f'), (13, 'r')]

/-- A unit by its number. -/
def numericEscape (u : CodeUnit) : Text := "\\u" ++ hexDigits u

/-- A unit within a string, unless it is half of a pair: quotes, backslashes and control characters
are escaped. -/
def escapeUnit (u : CodeUnit) : Text :=
  match shortEscapes.find? (·.1 == u) with
  | some (_, letter) => Text.ofChars ['\\', letter]
  | none => if u < 0x20 then numericEscape u else [u]

/-- The inside of a string. Paired surrogates stand for themselves, others are escaped. -/
def escapeUnits : Text → Text
  | [] => []
  | [u] => if u.isHighSurrogate || u.isLowSurrogate then numericEscape u else escapeUnit u
  | u :: v :: rest =>
    if u.isHighSurrogate && v.isLowSurrogate then u :: v :: escapeUnits rest
    else if u.isHighSurrogate || u.isLowSurrogate then numericEscape u ++ escapeUnits (v :: rest)
    else escapeUnit u ++ escapeUnits (v :: rest)

/-- A string with its quotes. -/
def quote (value : Text) : Text := "\"" ++ escapeUnits value ++ "\""

/-- A line break and the blanks in front of a value at a depth; nothing when the indent is zero. -/
def lineBreak (indent depth : Nat) : Text :=
  if indent = 0 then [] else Text.newline :: List.replicate (indent * depth) (.ofChar ' ')

/-- What stands between a key and its value. -/
def keyMark (indent : Nat) : Text := if indent = 0 then ":" else ": "

mutual

/-- The text of a value at a depth, each level indented by so many blanks; with none all is on one
line. -/
def renderAt (indent depth : Nat) : Json → Text
  | null => "null"
  | bool true => "true"
  | bool false => "false"
  | natural n => Text.ofNat n
  | real d => d.render
  | string s => quote s
  | array [] => "[]"
  | array (first :: rest) =>
    "[" ++ lineBreak indent (depth + 1) ++ renderAt indent (depth + 1) first ++
      renderElements indent (depth + 1) rest ++ lineBreak indent depth ++ "]"
  | object [] => "\x7b\x7d"
  | object (first :: rest) =>
    "\x7b" ++ lineBreak indent (depth + 1) ++ quote first.1 ++ keyMark indent ++
      renderAt indent (depth + 1) first.2 ++ renderMembers indent (depth + 1) rest ++
      lineBreak indent depth ++ "\x7d"

/-- Further elements of an array, each after a comma. -/
def renderElements (indent depth : Nat) : List Json → Text
  | [] => []
  | element :: rest =>
    "," ++ lineBreak indent depth ++ renderAt indent depth element ++
      renderElements indent depth rest

/-- Further members of an object, each after a comma. -/
def renderMembers (indent depth : Nat) : List (Text × Json) → Text
  | [] => []
  | (key, value) :: rest =>
    "," ++ lineBreak indent depth ++ quote key ++ keyMark indent ++ renderAt indent depth value ++
      renderMembers indent depth rest

end

/-- The text of a value. -/
def render (indent : Nat) (value : Json) : Text := renderAt indent 0 value

end Json

end Marginalia
