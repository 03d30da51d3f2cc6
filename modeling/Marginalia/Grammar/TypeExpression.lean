import Marginalia.Grammar.Joined
import Marginalia.Grammar.Word
import Marginalia.Syntax.TypeExpression

/-!
# The grammar of types

    term    = name | Constructor | "(" ")" | "(" type {"," type} ")"
            | "{" [name "|"] [name ":" type {"," name ":" type}] "}"
    operand = Constructor {term} | term
    type    = operand {"->" operand}
-/

namespace Marginalia.Grammar
open Marginalia.Parser

/-- A located node as a type. -/
def typeOf (node : Parser (TypeNode TypeExpression)) : Parser TypeExpression := do
  let located ← located node
  return ⟨located.span, located.value⟩

/-- Everything in parentheses: the unit, one type, or a tuple. -/
def tupleType (type : Parser TypeExpression) : Parser (TypeNode TypeExpression) := do
  let (contents, _) ← group .leftParen .rightParen type "')'"
  match contents.items with
  | [] => return .unit contents.trailing
  | [only] => return .parens only
  | elements => return .tuple elements

/-- The name of the record that is extended or updated, with the bar after it, or nothing at all. -/
def recordBase : Parser (Commented Text) :=
  attempt do
    let name ← padded lowerName
    let _ ← token .pipe "'|'"
    return name

/-- A field name, a colon and a type. -/
def recordTypeField (type : Parser TypeExpression) : Parser (RecordTypeField TypeExpression) := do
  let name ← lowerName
  let before ← whitespace
  let _ ← token .colon "':'"
  let after ← whitespace
  return ⟨.post name before, .pre after (← type)⟩

/-- A record type. -/
def recordType (type : Parser TypeExpression) : Parser (TypeNode TypeExpression) := do
  let ((base, fields), multiline) ← trackNewline do
    let _ ← token .leftBrace "'\x7b'"
    let base ← optional recordBase
    return (base, ← separated .rightBrace (recordTypeField type) "'\x7d'")
  return .record base fields.items fields.trailing multiline

/-- A type that needs no parentheses as an argument. -/
def typeTermOver (type : Parser TypeExpression) : Parser TypeExpression :=
  expecting "a type" (typeOf (choice
    [tupleType type,
      recordType type,
      do return .name (← lowerName),
      do return .construction (← qualifiedUpperName) []]))

/-- A constructor with arguments, or a term. -/
def typeOperand (term : Parser TypeExpression) : Parser TypeExpression := do
  if ← peekIs .upperIdentifier then
    typeOf do
      let tag ← qualifiedUpperName
      return .construction tag (← spaced term)
  else
    term

/-- A full type over its terms. -/
def typeOver (term : Parser TypeExpression) : Parser TypeExpression :=
  expecting "a type" do
    let start ← position
    match ← trackNewline (joined (token .arrow "'->'") (typeOperand term)) with
    | ((first, []), _) => return first.value
    | ((first, rest), multiline) => return ⟨⟨start, ← position⟩, .function first rest multiline⟩

/-- A type term with at most so many levels inside it. -/
def typeTermWithin : Nat → Parser TypeExpression
  | 0 => interrupt .exhausted
  | levels + 1 => typeTermOver (typeOver (typeTermWithin levels))

/-- A type that needs no parentheses as an argument. -/
def typeTerm : Parser TypeExpression := fun input => typeTermWithin input.nestingLimit input

/-- A full type, function types included. -/
def typeExpression : Parser TypeExpression := typeOver typeTerm

end Marginalia.Grammar
