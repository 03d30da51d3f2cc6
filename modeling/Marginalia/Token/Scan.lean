import Marginalia.Token

/-!
# Dividing a source into tokens

At every place that is not blank, the text decides by its first units what kind of token begins
there and how many units it takes. The functions below compute that number from the text that is
left, so a token's lexeme is always a stretch of the source, and scanning goes on where the token
ends. Where no token can be read, the fault tells why and how many units had been looked at.
-/

namespace Marginalia

/-- The two literals that are closed by a quotation mark. -/
inductive QuotedLiteral where
  | string
  | char
deriving DecidableEq, Repr

/-- Why no token can be read at a place. -/
inductive ScanFault where
  /-- No token begins with this unit. -/
  | unexpected (u : CodeUnit)
  /-- The literal is not closed on its line, or not closed at all. -/
  | unterminatedLiteral (literal : QuotedLiteral)
  /-- More or less than one character stands between single quotes. -/
  | notOneCharacter
  /-- A backslash before this unit, or before the end of the source, is no escape. -/
  | invalidEscape (escaped : Option CodeUnit)
  /-- The braces of a unicode escape do not close. -/
  | unterminatedUnicodeEscape
  /-- The mark of a hexadecimal number stands alone. -/
  | missingHexDigits
  /-- A block comment does not close. -/
  | unterminatedBlockComment
  /-- A shader block does not close. -/
  | unterminatedShader
  /-- Reading goes on where no unit is left. It is a fault of the reader and of no source. -/
  | pastEnd
deriving DecidableEq, Repr

/-- The wording of a fault. -/
def ScanFault.message : ScanFault → Text
  | unexpected u => "Unexpected character '" ++ [u] ++ "'"
  | unterminatedLiteral .string => "Unterminated string literal"
  | unterminatedLiteral .char => "Unterminated char literal"
  | notOneCharacter => "Char literal must contain exactly one character"
  | invalidEscape escaped => "Invalid escape \\" ++ escaped.toList
  | unterminatedUnicodeEscape => "Unterminated unicode escape"
  | missingHexDigits => "Expected hexadecimal digits after 0x"
  | unterminatedBlockComment => "Unterminated block comment"
  | unterminatedShader => "Unterminated shader block"
  | pastEnd => "Advanced past end of input"

/-- A fault with the stretch of source that was looked at. -/
structure ScanError where
  /-- What is wrong. -/
  fault : ScanFault
  /-- From the start of the token to the place where reading stopped. -/
  span : Span
deriving DecidableEq, Repr

/-- The wording of an error. -/
def ScanError.message (error : ScanError) : Text := error.fault.message

namespace Scan

/-- A fault and the number of units read before it. -/
structure Stop where
  /-- What is wrong. -/
  fault : ScanFault
  /-- Units read before the fault. -/
  read : Nat
deriving DecidableEq, Repr

/-- The outcome of reading a part of a token: a value, or a fault with the units read before it. -/
abbrev Reading (α : Type) := Except Stop α

/-- The number of units a part takes, counted together with `before` units in front of it. -/
def Reading.after (before : Nat) : Reading Nat → Reading Nat
  | .ok taken => .ok (before + taken)
  | .error stop => .error ⟨stop.fault, before + stop.read⟩

/-- The units that may stand between tokens. -/
def isBlank (u : CodeUnit) : Bool :=
  u == .ofChar ' ' || u == .ofChar '\t' || u == Text.newline || u == Text.carriageReturn

/-- The units of lower-case letters. -/
def isLower (u : CodeUnit) : Bool := .ofChar 'a' ≤ u && u ≤ .ofChar 'z'

/-- The units of upper-case letters. -/
def isUpper (u : CodeUnit) : Bool := .ofChar 'A' ≤ u && u ≤ .ofChar 'Z'

/-- The units a name may begin with. -/
def isNameStart (u : CodeUnit) : Bool := isLower u || isUpper u || u == .ofChar '_'

/-- The units a name may go on with. -/
def isNamePart (u : CodeUnit) : Bool := isNameStart u || u.isDigit || u == .ofChar '\''

/-- The number of units at the front of the text that have a property. -/
def run (property : CodeUnit → Bool) (text : Text) : Nat := (text.takeWhile property).length

/-- The text begins with the units of a string. -/
def opensWith (opening : String) (text : Text) : Bool := (Text.ofString opening).isPrefixOf text

/-- The units of a line comment: everything up to the end of the line. -/
def lineComment (text : Text) : Nat :=
  run (fun u => u != Text.newline && u != Text.carriageReturn) text

/-- The units up to the end of the block comment that `depth + 1` openings have begun, if it
ends. -/
def blockCommentEnd (depth : Nat) : Text → Option Nat
  | [] => none
  | [_] => none
  | u :: v :: rest =>
    if u = .ofChar '{' ∧ v = .ofChar '-' then
      (blockCommentEnd (depth + 1) rest).map (· + 2)
    else if u = .ofChar '-' ∧ v = .ofChar '}' then
      match depth with
      | 0 => some 2
      | outer + 1 => (blockCommentEnd outer rest).map (· + 2)
    else
      (blockCommentEnd depth (v :: rest)).map (· + 1)

/-- The units of a block comment, its opening included. -/
def blockComment (text : Text) : Reading Nat :=
  match blockCommentEnd 0 (text.drop 2) with
  | some taken => .ok (2 + taken)
  | none => .error ⟨.unterminatedBlockComment, text.length⟩

/-- The spelling that opens a shader block. -/
def shaderOpening : String := "[glsl|"

/-- The spelling that closes a shader block. -/
def shaderClosing : String := "|]"

/-- The units up to and including the first closing of a shader block. -/
def shaderEnd : Text → Option Nat
  | [] => none
  | u :: rest =>
    if opensWith shaderClosing (u :: rest) then some 2
    else (shaderEnd rest).map (· + 1)

/-- The units of a shader block, its opening included. -/
def shader (text : Text) : Reading Nat :=
  match shaderEnd (text.drop 6) with
  | some taken => .ok (6 + taken)
  | none => .error ⟨.unterminatedShader, text.length⟩

/-- The units of an exponent, or none when no digit follows its mark and sign. -/
def exponent (text : Text) : Nat :=
  match text with
  | mark :: rest =>
    if mark = .ofChar 'e' ∨ mark = .ofChar 'E' then
      let sign := if rest.head?.any (fun u => u = .ofChar '+' ∨ u = .ofChar '-') then 1 else 0
      match run CodeUnit.isDigit (rest.drop sign) with
      | 0 => 0
      | digits => 1 + sign + digits
    else 0
  | [] => 0

/-- The units of a fraction, or none when no digit follows the point. -/
def fraction (text : Text) : Nat :=
  match text with
  | point :: rest =>
    if point = .ofChar '.' then
      match run CodeUnit.isDigit rest with
      | 0 => 0
      | digits => 1 + digits
    else 0
  | [] => 0

/-- The units of a number that begins with a digit. -/
def number (text : Text) : Reading Nat :=
  if opensWith "0x" text || opensWith "0X" text then
    match run CodeUnit.isHexDigit (text.drop 2) with
    | 0 => .error ⟨.missingHexDigits, 2⟩
    | digits => .ok (2 + digits)
  else
    let whole := run CodeUnit.isDigit text
    let withFraction := whole + fraction (text.drop whole)
    .ok (withFraction + exponent (text.drop withFraction))

/-- The units that a backslash may stand before. -/
def isEscapable (u : CodeUnit) : Bool :=
  ['n', 'r', 't', '"', '\'', '\\'].any fun c => CodeUnit.ofChar c == u

/-- The units of an escape, given the text after its backslash. -/
def escape (text : Text) : Reading Nat :=
  if opensWith "u\x7b" text then
    let digits := run CodeUnit.isHexDigit (text.drop 2)
    if (text.drop (2 + digits)).head? = some (.ofChar '}') then
      .ok (2 + digits + 1)
    else
      .error ⟨.unterminatedUnicodeEscape, 2 + digits⟩
  else
    match text with
    | [] => .error ⟨.invalidEscape none, 0⟩
    | u :: _ => if isEscapable u then .ok 1 else .error ⟨.invalidEscape (some u), 0⟩

/-- The units of a string on one line, given the text after its opening quote. -/
def lineStringEnd (text : Text) : Reading Nat :=
  match text with
  | [] => .error ⟨.unterminatedLiteral .string, 0⟩
  | u :: rest =>
    if u = .ofChar '"' then .ok 1
    else if u = Text.newline then .error ⟨.unterminatedLiteral .string, 0⟩
    else if u = .ofChar '\\' then
      match escape rest with
      | .error stop => .error ⟨stop.fault, 1 + stop.read⟩
      | .ok taken => (lineStringEnd (rest.drop taken)).after (1 + taken)
    else (lineStringEnd rest).after 1
termination_by text.length

/-- The three quotation marks around a string of several lines. -/
def tripleQuote : String := "\"\"\""

/-- The units of a triple-quoted string, given the text after its opening. -/
def blockStringEnd (text : Text) : Reading Nat :=
  match text with
  | [] => .error ⟨.unterminatedLiteral .string, 0⟩
  | u :: rest =>
    if opensWith tripleQuote (u :: rest) then .ok 3
    else if u = .ofChar '\\' then
      match escape rest with
      | .error stop => .error ⟨stop.fault, 1 + stop.read⟩
      | .ok taken => (blockStringEnd (rest.drop taken)).after (1 + taken)
    else (blockStringEnd rest).after 1
termination_by text.length

/-- The units of a string, its quotes included. -/
def string (text : Text) : Reading Nat :=
  if opensWith tripleQuote text then
    (blockStringEnd (text.drop 3)).after 3
  else
    (lineStringEnd (text.drop 1)).after 1

/-- The one unit or escape between the quotes of a character. -/
def characterBody (text : Text) : Reading Nat :=
  match text with
  | [] => .error ⟨.unterminatedLiteral .char, 0⟩
  | u :: rest =>
    if u = Text.newline then .error ⟨.unterminatedLiteral .char, 0⟩
    else if u = .ofChar '\\' then (escape rest).after 1
    else .ok 1

/-- The units of a character, its quotes included. -/
def character (text : Text) : Reading Nat :=
  match (characterBody (text.drop 1)).after 1 with
  | .error stop => .error stop
  | .ok taken =>
    if (text.drop taken).head? = some (.ofChar '\'') then
      .ok (taken + 1)
    else
      .error ⟨.notOneCharacter, taken⟩

/-- The operator characters at the front of the text, up to a place where a line comment begins. -/
def operatorRun : Text → Nat
  | [] => 0
  | u :: rest =>
    if u.isOperator && !(u == .ofChar '-' && rest.head? == some (.ofChar '-')) then
      1 + operatorRun rest
    else 0

/-- The units of an operator or of reserved punctuation whose first unit is `first`: as many
operator characters as follow, but a minus sign directly after certain punctuation belongs to what
comes next. -/
def operator (first : CodeUnit) (rest : Text) : Nat :=
  let taken := operatorRun rest
  let lexeme := first :: rest.take taken
  if lexeme.getLast? = some (.ofChar '-') ∧
      splitBeforeMinus.any (fun word => Text.ofString word == lexeme.dropLast) then
    taken
  else
    1 + taken

/-- The punctuation marks of one unit. -/
def punctuation : List (Char × TokenKind) :=
  [('(', .leftParen), (')', .rightParen), ('{', .leftBrace), ('}', .rightBrace),
    ('[', .leftBracket), (']', .rightBracket), (',', .comma), ('λ', .backslash)]

/-- The kind and the number of units of the token at the front of the text `first :: rest`. -/
def front (first : CodeUnit) (rest : Text) : Reading (TokenKind × Nat) :=
  let text := first :: rest
  if opensWith "--" text then .ok (.lineComment, lineComment text)
  else if opensWith "\x7b-" text then (blockComment text).map (.blockComment, ·)
  else if opensWith shaderOpening text then (shader text).map (.shader, ·)
  else if isNameStart first then
    let taken := run isNamePart text
    let kind :=
      if isKeyword (text.take taken) then .keyword
      else if isUpper first then .upperIdentifier
      else .lowerIdentifier
    .ok (kind, taken)
  else if first.isDigit then (number text).map (.number, ·)
  else if first == .ofChar '"' then (string text).map (.string, ·)
  else if first == .ofChar '\'' then (character text).map (.char, ·)
  else
    match punctuation.find? (fun entry => CodeUnit.ofChar entry.1 == first) with
    | some (_, kind) => .ok (kind, 1)
    | none =>
      if first.isOperator then
        let taken := operator first rest
        .ok (TokenKind.ofOperator (text.take taken), taken)
      else
        .error ⟨.unexpected first, 0⟩

/-- Going over one unit more than are left, from the position behind the last one. The unit that is
not there is counted. -/
def overrun (position : Position) : ScanError :=
  let beyond : Position := { position with offset := position.offset + 1 }
  ⟨.pastEnd, ⟨beyond, beyond⟩⟩

/-- Goes over so many units of the text that is left at a position, one by one, and gives the
position behind them. -/
def advanceBy (position : Position) : Nat → Text → Except ScanError Position
  | 0, _ => .ok position
  | _ + 1, [] => .error (overrun position)
  | count + 1, u :: rest => advanceBy (position.step u) count rest

/-- The tokens of the text that is left at a position, closed by the end of the source. -/
def tokens (position : Position) (text : Text) : Except ScanError (List Token) :=
  match text with
  | [] => .ok [⟨.eof, [], ⟨position, position⟩⟩]
  | u :: rest =>
    if isBlank u then
      tokens (position.step u) rest
    else
      match front u rest with
      | .error stop =>
        match advanceBy position stop.read (u :: rest) with
        | .error error => .error error
        | .ok place => .error ⟨stop.fault, ⟨position, place⟩⟩
      | .ok (kind, taken) =>
        match advanceBy position taken (u :: rest) with
        | .error error => .error error
        | .ok next =>
          match tokens next (rest.drop (taken - 1)) with
          | .error error => .error error
          | .ok following => .ok (⟨kind, u :: rest.take (taken - 1), ⟨position, next⟩⟩ :: following)
termination_by text.length

end Scan

/-- The tokens of a source, comments included and closed by the end of the source. -/
def Token.scan (source : Text) : Except ScanError (List Token) := Scan.tokens .start source

end Marginalia
