import Marginalia.Grammar.Joined
import Marginalia.Grammar.Word
import Marginalia.Syntax.Pattern

/-!
# The grammar of patterns

    term    = "_" | name | Constructor | literal
            | "(" ")" | "(" pattern {"," pattern} ")"
            | "[" [pattern {"," pattern}] "]"
            | "{" name {"," name} "}"
    operand = Constructor {term} | term
    pattern = operand {"::" operand} ["as" name]

Each rule is written over the parser of the patterns inside it, and the knot is tied level by level:
what stands inside brackets is one level further in than the brackets.
-/

namespace Marginalia.Grammar
open Marginalia.Parser

/-- A braced list of field names. -/
def recordPattern : Parser (PatternNode Pattern) := do
  let (contents, _) ← group .leftBrace .rightBrace lowerName "'\x7d'"
  match contents.items with
  | [] => fail ["a record field"]
  | fields => return .record fields

/-- Everything in parentheses: the unit, one pattern, or a tuple. -/
def tuplePattern (pattern : Parser Pattern) : Parser (PatternNode Pattern) := do
  let (contents, _) ← group .leftParen .rightParen pattern "')'"
  match contents.items with
  | [] => return .unit contents.trailing
  | [only] => return .parens only
  | elements => return .tuple elements

/-- Everything in square brackets. -/
def listPattern (pattern : Parser Pattern) : Parser (PatternNode Pattern) := do
  let (contents, _) ← group .leftBracket .rightBracket pattern "']'"
  match contents.items with
  | [] => return .emptyList contents.trailing
  | elements => return .list elements

/-- A pattern of one word. -/
def wordPattern : Parser (PatternNode Pattern) := do
  if ← peekSpelled .lowerIdentifier "_" then
    let _ ← token .lowerIdentifier "'_'"
    return .anything
  else if ← peekIs .lowerIdentifier then
    return .name (← lowerName)
  else if ← peekIs .upperIdentifier then
    return .data (← qualifiedUpperName) []
  else
    return .literal (← literal)

/-- A located node as a pattern. -/
def patternOf (node : Parser (PatternNode Pattern)) : Parser Pattern := do
  let located ← located node
  return ⟨located.span, located.value⟩

/-- A pattern that needs no parentheses as an argument. -/
def patternTermOver (pattern : Parser Pattern) : Parser Pattern :=
  expecting "a pattern" (patternOf (choice
    [recordPattern, tuplePattern pattern, listPattern pattern, wordPattern]))

/-- A constructor with arguments, or a term. -/
def patternOperand (term : Parser Pattern) : Parser Pattern := do
  if ← peekIs .upperIdentifier then
    patternOf do
      let tag ← qualifiedUpperName
      return .data tag (← spaced term)
  else
    term

/-- Operands joined by `::`; a single one is that operand itself. -/
def consPattern (term : Parser Pattern) : Parser Pattern := do
  let start ← position
  match ← joined (operator "::") (patternOperand term) with
  | (first, []) => return first.value
  | (first, rest) => return ⟨⟨start, ← position⟩, .cons first rest⟩

/-- The word `as` with the comments before it, or nothing at all. -/
def aliasKeyword : Parser Comments :=
  attempt do
    let comments ← whitespace
    let _ ← keyword "as"
    return comments

/-- A full pattern over its terms. -/
def patternOver (term : Parser Pattern) : Parser Pattern :=
  expecting "a pattern" do
    let start ← position
    let pattern ← consPattern term
    match ← optional aliasKeyword with
    | none => return pattern
    | some before =>
      let after ← whitespace
      let name ← lowerName
      return ⟨⟨start, ← position⟩, .named (.post pattern before) (.pre after name)⟩

/-- A pattern term with at most so many levels inside it. -/
def patternTermWithin : Nat → Parser Pattern
  | 0 => interrupt .exhausted
  | levels + 1 => patternTermOver (patternOver (patternTermWithin levels))

/-- A pattern that needs no parentheses as an argument. -/
def patternTerm : Parser Pattern := fun input => patternTermWithin input.nestingLimit input

/-- A full pattern: constructor application, cons chain and alias. -/
def pattern : Parser Pattern := patternOver patternTerm

end Marginalia.Grammar
