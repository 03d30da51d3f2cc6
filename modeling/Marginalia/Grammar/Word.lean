import Marginalia.Parser.Repetition
import Marginalia.Syntax.Literal
import Marginalia.Syntax.Name

/-!
# Words of the grammar

The smallest things that patterns, types and expressions are made of: names, operators, literals,
and the rule that arguments stand past the reference of indentation.
-/

namespace Marginalia.Grammar
open Marginalia.Parser

/-- A lower-case name. -/
def lowerName : Parser Text := return (← token .lowerIdentifier "a lower-case name").lexeme

/-- An upper-case name. -/
def upperName : Parser Text := return (← token .upperIdentifier "an upper-case name").lexeme

/-- A dot written directly against what is before and after it. -/
def dot : Parser Token := token .dot "'.'"

/-- Further upper-case names, each directly after a dot. -/
def dottedUpperNames : Parser (List Text) :=
  many (attempt do
    let _ ← dot
    upperName)

/-- A lower-case name directly after a dot. -/
def dottedLowerName : Parser Text :=
  attempt do
    let _ ← dot
    lowerName

/-- Upper-case names joined by dots, without blanks in between. -/
def qualifiedUpperName : Parser QualifiedName := do
  let first ← upperName
  return .ofParts first (← dottedUpperNames)

/-- A name of a value or of a constructor, qualified or not. -/
def nameReference : Parser Reference := do
  if ← peekIs .lowerIdentifier then
    return .value ⟨[], ← lowerName⟩
  else if ← peekIs .upperIdentifier then
    let first ← upperName
    let rest ← dottedUpperNames
    match ← optional dottedLowerName with
    | some name => return .value ⟨first :: rest, name⟩
    | none => return .tag (.ofParts first rest)
  else
    fail ["a name"]

/-- The symbol of an operator. -/
def operatorSymbol : Parser Text := return (← token .operator "an infix operator").lexeme

/-- An operator between two operands. -/
def infixOperator : Parser Reference := return .operator (← operatorSymbol)

/-- The symbol of an operator in parentheses, without blanks in between. -/
def parenthesizedOperator : Parser Text := do
  let _ ← token .leftParen "'('"
  let symbol ← operatorSymbol
  let _ ← token .rightParen "')'"
  return symbol

/-- A number, string or character. Only a number token that no source has can fail to be a
number. -/
def literal : Parser Literal := do
  let token ← satisfy (fun token => token.kind == .number || token.kind == .string || token.kind ==
      .char) "a literal"
  match token.kind with
  | .string => return .ofString token.lexeme
  | .char => return .ofCharacter token.lexeme
  | _ =>
    match Literal.ofNumber? token.lexeme with
    | some number => return number
    | none => interrupt (.notInteger token.lexeme)

/-- An item after blanks and comments, past the reference of indentation. -/
def spacedItem (item : Parser α) : Parser (Commented α) :=
  attempt do
    let comments ← whitespace
    indented
    return .pre comments (← item)

/-- As many items as follow past the reference of indentation. -/
def spaced (item : Parser α) : Parser (List (Commented α)) := many (spacedItem item)

/-- An item past the reference of indentation that does not begin with a minus sign written directly
after what is before it: there the minus sign is an operator. -/
def spacedArgument (item : Parser α) : Parser (Commented α) :=
  attempt do
    let start ← position
    let comments ← whitespace
    let unspaced := (← position).offset == start.offset
    if unspaced && (← peekIs .operator) && (← peek).lexeme.head? == some (.ofChar '-') then
      fail ["whitespace"]
    else
      indented
      return .pre comments (← item)

end Marginalia.Grammar
