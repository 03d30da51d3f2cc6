import Marginalia.Source

/-!
# Tokens

The vocabulary of the source language: the kinds of tokens, the reserved words, the characters that
make up operators and the operator spellings that are punctuation. Comments are tokens like any
other, so that they can be kept; blanks are not, since the gap between two tokens can be told from
their spans.
-/

namespace Marginalia

/-- The kinds of tokens. -/
inductive TokenKind where
  | keyword
  | lowerIdentifier
  | upperIdentifier
  | number
  | string
  | char
  | operator
  | leftParen
  | rightParen
  | leftBrace
  | rightBrace
  | leftBracket
  | rightBracket
  | comma
  | dot
  | range
  | colon
  | equals
  | pipe
  | arrow
  | backslash
  | shader
  | lineComment
  | blockComment
  | eof
deriving DecidableEq, Repr, Inhabited

namespace TokenKind

/-- Every kind, in the order of their declaration. -/
def all : List TokenKind :=
  [keyword, lowerIdentifier, upperIdentifier, number, string, char, operator, leftParen, rightParen,
    leftBrace, rightBrace, leftBracket, rightBracket, comma, dot, range, colon, equals, pipe, arrow,
    backslash, shader, lineComment, blockComment, eof]

/-- The name under which a kind appears in messages and in printed tokens. -/
def name : TokenKind → String
  | keyword => "Keyword"
  | lowerIdentifier => "LowerIdentifier"
  | upperIdentifier => "UpperIdentifier"
  | number => "Number"
  | string => "String"
  | char => "Char"
  | operator => "Operator"
  | leftParen => "LParen"
  | rightParen => "RParen"
  | leftBrace => "LBrace"
  | rightBrace => "RBrace"
  | leftBracket => "LBracket"
  | rightBracket => "RBracket"
  | comma => "Comma"
  | dot => "Dot"
  | range => "Range"
  | colon => "Colon"
  | equals => "Equals"
  | pipe => "Pipe"
  | arrow => "Arrow"
  | backslash => "Backslash"
  | shader => "Shader"
  | lineComment => "LineComment"
  | blockComment => "BlockComment"
  | eof => "Eof"

/-- The kind with a given name. -/
def ofName? (name : String) : Option TokenKind := all.find? (·.name == name)

/-- Comments of either form. -/
def isComment : TokenKind → Bool
  | lineComment | blockComment => true
  | _ => false

end TokenKind

/-- A stretch of source that belongs together, with its kind. -/
structure Token where
  /-- What sort of token it is. -/
  kind : TokenKind
  /-- The code units it was written with. -/
  lexeme : Text
  /-- Where it was written. -/
  span : Span
deriving DecidableEq, Repr, Inhabited

/-- The token is a comment. -/
def Token.isComment (token : Token) : Bool := token.kind.isComment

/-- The reserved words. -/
def keywords : List String :=
  ["if", "then", "else", "let", "in", "case", "of", "type", "module", "import", "exposing", "as",
    "port", "infix", "infixl", "infixr"]

/-- The text is a reserved word. -/
def isKeyword (text : Text) : Bool := keywords.any fun word => Text.ofString word == text

/-- The characters that make up operators. -/
def operatorCharacters : List Char :=
  ['!', '#', '$', '%', '&', '*', '+', '.', '/', '<', '=', '>', '?', '@', '\\', '^', '|',
    '~', ':', '-']

/-- The code unit is one of the operator characters. -/
def CodeUnit.isOperator (u : CodeUnit) : Bool :=
  operatorCharacters.any fun c => CodeUnit.ofChar c == u

/-- The operator spellings that are punctuation, with their kinds. -/
def reservedOperators : List (String × TokenKind) :=
  [("=", .equals), ("|", .pipe), (":", .colon), (".", .dot), ("..", .range), ("->", .arrow),
    ("\\", .backslash)]

/-- The kind of an operator spelling: punctuation when it is reserved, and an operator otherwise. -/
def TokenKind.ofOperator (lexeme : Text) : TokenKind :=
  ((reservedOperators.find? fun entry => Text.ofString entry.1 == lexeme).map (·.2)).getD .operator

/-- The punctuation that ends before a minus sign written directly after it. -/
def splitBeforeMinus : List String := ["=", "->", ":", ".."]

end Marginalia
