import Marginalia.Comment

/-!
# Parsers over a token cursor

A parser reads the tokens of an input from a cursor. Its outcome carries the cursor also when it
fails, so that a choice can tell whether the failing alternative had consumed anything. There are
two sorts of failures: the input may not match, which a combinator may recover from, and a run may
be cut short, which none does.
-/

namespace Marginalia

/-- What a parser reads: the tokens of a source, comments included, and the source itself. -/
structure Input where
  /-- The tokens in source order. -/
  tokens : Array Token
  /-- The text the tokens were read from. -/
  source : Text

/-- The next token at an index; past the last token, the last one again. -/
def Input.tokenAt? (input : Input) (index : Nat) : Option Token :=
  input.tokens[index]? <|> input.tokens.back?

/-- The comments at an index, up to the next token that is none. -/
def Input.commentsAt (input : Input) (index : Nat) : List Token :=
  if inside : index < input.tokens.size then
    let token := input.tokens[index]
    if token.isComment then token :: input.commentsAt (index + 1) else []
  else []
termination_by input.tokens.size - index

/-- The comments at an index are the longest run of comments that the tokens from there on begin
with. -/
theorem Input.commentsAt_eq_takeWhile (input : Input) (index : Nat) :
    input.commentsAt index = (input.tokens.toList.drop index).takeWhile (·.isComment) := by
  induction left : input.tokens.size - index generalizing index with
  | zero =>
    rw [commentsAt, dif_neg (by omega), List.drop_eq_nil_of_le (by simp; omega)]
    rfl
  | succ bound ih =>
    have inside : index < input.tokens.size := by omega
    rw [commentsAt, dif_pos inside, List.drop_eq_getElem_cons (by simpa using inside),
      List.takeWhile_cons, ih (index + 1) (by omega)]
    rfl

/-- More repetitions than consuming this input can take. -/
def Input.repetitionLimit (input : Input) : Nat := 2 * input.tokens.size + input.source.length + 2

/-- More levels than anything nested in this input can have. -/
def Input.nestingLimit (input : Input) : Nat := input.tokens.size + 2

/-- Everything that reading changes. -/
structure Cursor where
  /-- The index of the next unread token. -/
  index : Nat
  /-- How far the source has been consumed. -/
  position : Position
  /-- The reference columns of indentation, innermost first. -/
  indentation : List Nat
deriving DecidableEq, Repr

namespace Cursor

/-- The cursor before the first token. -/
def start : Cursor := ⟨0, .start, []⟩

/-- The column that indentation is measured from; outside any block, the first one. -/
def reference (cursor : Cursor) : Nat := cursor.indentation.headD 1

/-- Input was consumed between an earlier cursor and this one. -/
def movedFrom (cursor earlier : Cursor) : Bool :=
  cursor.index != earlier.index || cursor.position.offset != earlier.position.offset

end Cursor

/-- Why an input does not match. -/
inductive ParseError where
  /-- One of the labels was expected at a token that is something else. -/
  | unexpected (expected : List String) (found : Token)
  /-- The number is no precedence. -/
  | invalidPrecedence (number : Token)
  /-- There is no token to look at. -/
  | noTokens (position : Position)
deriving DecidableEq, Repr

namespace ParseError

/-- What a precedence is called where one is expected. -/
def precedenceLabel : String := "a precedence from 0 to 9"

/-- What would have matched. -/
def expected : ParseError → List String
  | unexpected expected _ => expected
  | invalidPrecedence _ => [precedenceLabel]
  | noTokens _ => []

/-- The place of the mismatch. -/
def span : ParseError → Span
  | unexpected _ found => found.span
  | invalidPrecedence number => number.span
  | noTokens position => ⟨position, position⟩

/-- How a token is called in a message. -/
def describe (token : Token) : Text :=
  match token.kind with
  | .eof => "end of input"
  | kind => kind.name ++ " '" ++ token.lexeme ++ "'"

/-- The wording of a mismatch. -/
def message : ParseError → Text
  | unexpected [] found => "Expected more input but found " ++ describe found
  | unexpected labels found =>
    "Expected " ++ " or ".intercalate labels ++ " but found " ++ describe found
  | invalidPrecedence number =>
    "Operator precedence must be an integer from 0 to 9, got " ++ number.lexeme
  | noTokens _ => "No tokens available"

end ParseError

/-- Why a run was cut short. -/
inductive Interruption where
  /-- Something went wrong that is no matter of the input's form. -/
  | crash (message : Text)
  /-- A number token is spelled in a way that no integer is, as no token of a source is. -/
  | notInteger (lexeme : Text)
  /-- A bound that is never reached on the tokens of a source was reached. -/
  | exhausted
deriving DecidableEq, Repr

/-- The wording of an interruption. -/
def Interruption.message : Interruption → Text
  | crash message => message
  | notInteger lexeme => "Cannot convert " ++ lexeme ++ " to a BigInt"
  | exhausted => "Reading did not come to an end"

/-- The two sorts of failures. -/
inductive Failure where
  /-- The input does not match; another alternative may. -/
  | rejected (error : ParseError)
  /-- The run was cut short. -/
  | interrupted (interruption : Interruption)
deriving DecidableEq, Repr

/-- What a parser ends in, and the cursor it leaves. -/
inductive Outcome (α : Type) where
  | done (value : α) (cursor : Cursor)
  | failed (failure : Failure) (cursor : Cursor)

/-- The cursor that is left. -/
def Outcome.cursor : Outcome α → Cursor
  | done _ cursor => cursor
  | failed _ cursor => cursor

/-- The value or the failure, without the cursor. -/
def Outcome.toExcept : Outcome α → Except Failure α
  | done value _ => .ok value
  | failed failure _ => .error failure

/-- A function from an input and a cursor to an outcome. -/
def Parser (α : Type) := Input → Cursor → Outcome α

namespace Parser

instance : Monad Parser where
  pure value := fun _ cursor => .done value cursor
  bind parser next := fun input cursor =>
    match parser input cursor with
    | .done value after => next value input after
    | .failed failure after => .failed failure after

/-- Fails without recovery. -/
def interrupt (interruption : Interruption) : Parser α := fun _ cursor =>
  .failed (.interrupted interruption) cursor

/-- Fails with a mismatch. -/
def reject (error : ParseError) : Parser α := fun _ cursor => .failed (.rejected error) cursor

/-! ## Position and lookahead -/

/-- The cursor itself. -/
def cursor : Parser Cursor := fun _ cursor => .done cursor cursor

/-- How far the source has been consumed. -/
def position : Parser Position := fun _ cursor => .done cursor.position cursor

/-- The next token, comments included. -/
def peek : Parser Token := fun input cursor =>
  match input.tokenAt? cursor.index with
  | some token => .done token cursor
  | none => .failed (.rejected (.noTokens cursor.position)) cursor

/-- The next token starts where the source has been consumed to. -/
def isAdjacent : Parser Bool := do
  let token ← peek
  return token.span.start.offset == (← position).offset

/-- The next token is adjacent and has a property. -/
def peekThat (property : Token → Bool) : Parser Bool := do
  let token ← peek
  return (← isAdjacent) && property token

/-- The next token is adjacent and of a kind. -/
def peekIs (kind : TokenKind) : Parser Bool := peekThat (·.kind == kind)

/-- The next token is adjacent, of a kind and spelled in a certain way. -/
def peekSpelled (kind : TokenKind) (lexeme : Text) : Parser Bool :=
  peekThat fun token => token.kind == kind && token.lexeme == lexeme

/-- Fails at the next token, naming what was expected there. -/
def fail (expected : List String) : Parser α := do
  reject (.unexpected expected.eraseDups (← peek))

/-! ## Tokens -/

/-- Reads a token that is adjacent, no comment, and has a property. -/
def satisfy (property : Token → Bool) (label : String) : Parser Token := do
  let token ← peek
  if !(← isAdjacent) || token.isComment || !property token then
    fail [label]
  else
    fun _ cursor => .done token
      { cursor with index := cursor.index + 1, position := token.span.stop }

/-- Reads a token of a kind. -/
def token (kind : TokenKind) (label : String) : Parser Token := satisfy (·.kind == kind) label

/-- A word between single quotes, as a label. -/
def quoted (word : String) : String := "'" ++ word ++ "'"

/-- Reads a token of a kind with a spelling, which is its label. -/
def spelled (kind : TokenKind) (word : String) : Parser Token :=
  satisfy (fun token => token.kind == kind && token.lexeme == Text.ofString word) (quoted word)

/-- Reads a reserved word. -/
def keyword (word : String) : Parser Token := spelled .keyword word

/-- Reads an operator. -/
def operator (symbol : String) : Parser Token := spelled .operator symbol

/-- Succeeds at the end of the input. -/
def eof : Parser Unit := do
  let token ← peek
  if token.kind != .eof || !(← isAdjacent) then fail ["end of input"]

/-! ## Comments and line breaks -/

/-- Consumes blanks and comments up to the next token that is no comment, and gives the comments. -/
def whitespace : Parser Comments := fun input cursor =>
  let comments := input.commentsAt cursor.index
  let index := cursor.index + comments.length
  match input.tokens[index]? <|> input.tokenAt? cursor.index with
  | some next =>
    .done (comments.map Comment.ofToken) { cursor with index := index, position := next.span.start }
  | none => .failed (.rejected (.noTokens cursor.position)) cursor

/-- Runs a parser with the comments on both sides of what it reads. -/
def padded (parser : Parser α) : Parser (Commented α) := do
  let before ← whitespace
  let value ← parser
  let after ← whitespace
  return ⟨before, value, after⟩

/-- Runs a parser and tells whether the source it consumed has a line break in it. -/
def trackNewline (parser : Parser α) : Parser (α × Bool) := fun input cursor =>
  match parser input cursor with
  | .done value after =>
    .done (value, (input.source.slice cursor.position.offset after.position.offset).hasNewline)
      after
  | .failed failure after => .failed failure after

/-- Runs a parser and tells the span it consumed. -/
def located (parser : Parser α) : Parser (Located α) := do
  let start ← position
  let value ← parser
  return ⟨⟨start, ← position⟩, value⟩

/-! ## Indentation -/

/-- The column that indentation is measured from. -/
def reference : Parser Nat := return (← cursor).reference

/-- Runs a parser with the current column as the reference of indentation. -/
def withReference (parser : Parser α) : Parser α := fun input cursor =>
  match parser input
    { cursor with indentation := cursor.position.column :: cursor.indentation } with
  | .done value after => .done value { after with indentation := cursor.indentation }
  | .failed failure after => .failed failure { after with indentation := cursor.indentation }

/-- Requires the current column to be past the reference. -/
def indented : Parser Unit := do
  let column ← reference
  if (← position).column ≤ column then
    fail ["an indented line (past column " ++ toString column ++ ")"]

/-- Requires the current column to be the reference. -/
def aligned : Parser Unit := do
  let column ← reference
  if (← position).column ≠ column then
    fail ["a line aligned at column " ++ toString column]

/-! ## Backtracking and choice -/

/-- Runs a parser; when the input does not match, it is as if nothing had been consumed. -/
def attempt (parser : Parser α) : Parser α := fun input cursor =>
  match parser input cursor with
  | .failed (.rejected error) _ => .failed (.rejected error) cursor
  | outcome => outcome

/-- Runs a parser without consuming anything. -/
def lookAhead (parser : Parser α) : Parser α := fun input cursor =>
  match parser input cursor with
  | .done value _ => .done value cursor
  | .failed failure _ => .failed failure cursor

/-- Runs a parser; when the input does not match at once, there is no value and nothing is
consumed. -/
def optional (parser : Parser α) : Parser (Option α) := fun input cursor =>
  match parser input cursor with
  | .done value after => .done (some value) after
  | .failed (.rejected error) after =>
    if after.movedFrom cursor then .failed (.rejected error) after else .done none cursor
  | .failed failure after => .failed failure after

/-- The alternatives in order, after others that expected the given labels. -/
def choiceAfter (label : Option String) (expected : List String) : List (Parser α) → Parser α
  | [] => fail (match label with
      | some name => [name]
      | none => expected)
  | alternative :: others => fun input cursor =>
    match alternative input cursor with
    | .failed (.rejected error) after =>
      if after.movedFrom cursor then .failed (.rejected error) after
      else choiceAfter label (expected ++ error.expected) others input cursor
    | outcome => outcome

/-- The first alternative that succeeds. One that fails after consuming input is not backtracked
over. When all fail at once, all that they expected was expected. -/
def choice (alternatives : List (Parser α)) : Parser α := choiceAfter none [] alternatives

/-- A choice that has a name for what is expected when all alternatives fail at once. -/
def choiceNamed (label : String) (alternatives : List (Parser α)) : Parser α :=
  choiceAfter (some label) [] alternatives

/-- Replaces what a failure at once reports as expected. -/
def expecting (label : String) (parser : Parser α) : Parser α := fun input cursor =>
  match parser input cursor with
  | .failed (.rejected error) after =>
    if after.movedFrom cursor then .failed (.rejected error) after
    else fail [label] input after
  | outcome => outcome

/-- Commits to a parser once a check succeeds as a lookahead. -/
def commitIf (check : Parser β) (parser : Parser α) : Parser α := do
  let _ ← lookAhead check
  parser

end Parser

end Marginalia
