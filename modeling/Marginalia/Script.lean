import Marginalia.Grammar.Module
import Marginalia.Json.Tree

/-!
# Parsers described by data

A script describes a parser built from the combinators, the words of the grammar and its rules.
Scripts can be written down, run one after another from one cursor, and reasoned about by induction.
A script may have no result, which ends a repetition; a result is shown as JSON.
-/

namespace Marginalia

/-- The description of a parser. -/
inductive Script where
  | position
  | peek
  | isAdjacent
  | peekIs (kind : TokenKind) (lexeme : Option Text)
  | indentReference
  | token (kind : TokenKind) (label : String)
  | keyword (word : String)
  | operator (symbol : String)
  | satisfy (lexemes : List Text) (label : String)
  | eof
  | whitespace
  | indented
  | aligned
  | padded (inner : Script)
  | trackNewline (inner : Script)
  | located (inner : Script)
  | withReference (inner : Script)
  | attempt (inner : Script)
  | lookAhead (inner : Script)
  | optional (inner : Script)
  | many (inner : Script)
  | many1 (inner : Script)
  | choice (label : Option String) (alternatives : List Script)
  | expecting (label : String) (inner : Script)
  | commitIf (check inner : Script)
  | separated (close : TokenKind) (label : String) (item : Script)
  | group (openingKind close : TokenKind) (label : String) (item : Script)
  | spaced (item : Script)
  | spacedArgument (item : Script)
  | lowerName
  | upperName
  | qualifiedUpperName
  | nameReference
  | infixOperator
  | parenthesizedOperator
  | literal
  | expression
  | term
  | application
  | conditional
  | caseDistinction
  | letExpression
  | lambda
  | declaration
  | definition
  | signature
  | pattern
  | patternTerm
  | typeExpression
  | typeTerm
  | chain (operand final connective : Script)
  /-- All scripts in order, with the list of their results. -/
  | all (scripts : List Script)
  /-- A result without reading anything. -/
  | result (value : Option Json)
  /-- A mismatch at the next token. -/
  | mismatch (expected : List String)
  /-- A failure that no combinator recovers from. -/
  | crash (message : Text)

namespace Script

/-- What a script results in, if anything. -/
abbrev Value := Option Json

/-- A result as a part of another one; the lack of one is null. -/
def Value.toJson (value : Value) : Json := value.getD .null

/-- A result that is there. -/
def shown (write : α → Json) (parser : Parser α) : Parser Value := return some (write (← parser))

/-- The items of a sequence. -/
def itemMembers (items : Parser.Items Value) : List (String × Json) :=
  [("items", Json.commentedList Value.toJson items.items),
    ("trailing", Json.comments items.trailing)]

/-- A chain of any operands; without clauses it is its only operand. -/
def chainValue (style : Json.Style) (chain : Located (Grammar.OperatorChain Value Value)) : Value :=
  match chain.value.clauses with
  | [] => chain.value.left
  | clauses =>
    some (style.spanned chain.span
      (Json.chain style Value.toJson Value.toJson chain.value.left clauses chain.value.layout))

/-- All parsers in order. -/
def inOrder : List (Parser Value) → Parser (List Json)
  | [] => return []
  | parser :: rest => do
    let value ← parser
    return Value.toJson value :: (← inOrder rest)

open Marginalia.Parser in
mutual

/-- The parser that a script describes. -/
def parser (style : Json.Style) : Script → Parser Value
  | .position => shown style.position Parser.position
  | .peek => shown style.token Parser.peek
  | .isAdjacent => shown .bool Parser.isAdjacent
  | .peekIs kind none => shown .bool (Parser.peekIs kind)
  | .peekIs kind (some lexeme) => shown .bool (peekSpelled kind lexeme)
  | .indentReference => shown .natural reference
  | .token kind label => shown style.token (Parser.token kind label)
  | .keyword word => shown style.token (Parser.keyword word)
  | .operator symbol => shown style.token (Parser.operator symbol)
  | .satisfy lexemes label => shown style.token (Parser.satisfy (lexemes.contains ·.lexeme) label)
  | .eof => shown (fun _ => .null) Parser.eof
  | .whitespace => shown Json.comments Parser.whitespace
  | .indented => shown (fun _ => .null) Parser.indented
  | .aligned => shown (fun _ => .null) Parser.aligned
  | .padded inner => shown (Json.commented Value.toJson) (Parser.padded (parser style inner))
  | .trackNewline inner =>
    shown (fun (value, crossed) => .array [Value.toJson value, .bool crossed])
      (Parser.trackNewline (parser style inner))
  | .located inner => shown (style.located Value.toJson) (Parser.located (parser style inner))
  | .withReference inner => Parser.withReference (parser style inner)
  | .attempt inner => Parser.attempt (parser style inner)
  | .lookAhead inner => Parser.lookAhead (parser style inner)
  | .optional inner => return (← Parser.optional (parser style inner)).join
  | .many inner => shown .array (values (parser style inner))
  | .many1 inner => do
    let first ← parser style inner
    return some (.array (Value.toJson first :: (← values (parser style inner))))
  | .choice none alternatives => Parser.choice (parsers style alternatives)
  | .choice (some label) alternatives => choiceNamed label (parsers style alternatives)
  | .expecting label inner => Parser.expecting label (parser style inner)
  | .commitIf check inner => Parser.commitIf (parser style check) (parser style inner)
  | .separated close label item =>
    shown (fun items => Json.fields (itemMembers items))
      (Parser.separated close (parser style item) label)
  | .group openingKind close label item =>
    shown (fun (items, multiline) =>
        Json.fields (itemMembers items ++ [("multiline", .bool multiline)]))
      (Parser.group openingKind close (parser style item) label)
  | .spaced item => shown (Json.commentedList Value.toJson) (Grammar.spaced (parser style item))
  | .spacedArgument item =>
    shown (Json.commented Value.toJson) (Grammar.spacedArgument (parser style item))
  | .lowerName => shown .string Grammar.lowerName
  | .upperName => shown .string Grammar.upperName
  | .qualifiedUpperName => shown Json.qualifiedName Grammar.qualifiedUpperName
  | .nameReference => shown Json.reference Grammar.nameReference
  | .infixOperator => shown Json.reference Grammar.infixOperator
  | .parenthesizedOperator => shown .string Grammar.parenthesizedOperator
  | .literal => shown style.literal Grammar.literal
  | .expression => shown style.expression Grammar.expression
  | .term => shown style.expression Grammar.term
  | .application => shown style.expression (Grammar.application Grammar.term)
  | .conditional => shown style.expression (Grammar.conditional Grammar.expression)
  | .caseDistinction => shown style.expression (Grammar.caseDistinction Grammar.expression)
  | .letExpression => shown style.expression (Grammar.letExpression Grammar.expression)
  | .lambda => shown style.expression (Grammar.lambda Grammar.expression)
  | .declaration => shown style.declarationTree (Grammar.declaration Grammar.expression)
  | .definition =>
    shown
      (fun value => .array
        [style.pattern value.pattern, Json.commentedList style.pattern value.arguments,
          Json.comments value.comments, style.expression value.body])
      (Grammar.definition Grammar.expression)
  | .signature =>
    shown (fun value => .array [Json.commented Json.annotatedName value.name,
      Json.commented style.typeExpression value.type]) Grammar.signature
  | .pattern => shown style.pattern Grammar.pattern
  | .patternTerm => shown style.pattern Grammar.patternTerm
  | .typeExpression => shown style.typeExpression Grammar.typeExpression
  | .typeTerm => shown style.typeExpression Grammar.typeTerm
  | .chain operand final connective =>
    return chainValue style (← Grammar.operatorChain (parser style operand) (parser style final)
      (parser style connective))
  | .all scripts => shown .array (inOrder (parsers style scripts))
  | .result value => return value
  | .mismatch expected => fail expected
  | .crash message => interrupt (.crash message)

/-- The parsers that some scripts describe. -/
def parsers (style : Json.Style) : List Script → List (Parser Value)
  | [] => []
  | script :: rest => parser style script :: parsers style rest

end

/-- What a step of a session ends in: a result or a failure, and the cursor after it. -/
structure Step where
  /-- The result, or why there is none. -/
  result : Except Failure Value
  /-- The cursor after the step. -/
  cursor : Cursor
  /-- The next token and whether it is adjacent, where there is a token. -/
  next : Option (Token × Bool)

/-- Runs one script from a cursor. -/
def step (style : Json.Style) (input : Input) (cursor : Cursor) (script : Script) : Step :=
  let outcome := parser style script input cursor
  let after := outcome.cursor
  let next := (input.tokenAt? after.index).map fun token =>
    (token, token.span.start.offset == after.position.offset)
  ⟨outcome.toExcept, after, next⟩

/-- Runs scripts one after another, each from the cursor that the one before has left. -/
def session (style : Json.Style) (input : Input) : Cursor → List Script → List Step
  | _, [] => []
  | cursor, script :: rest =>
    let first := step style input cursor script
    first :: session style input first.cursor rest

end Script

end Marginalia
