import Marginalia.Parse
import Marginalia.Proofs.Scan.Division

/-!
# Words and how tokens spell them

A word is what a syntax tree says about the tokens it was read from. Most words fix the kind and the
lexeme of one token. The others leave open what a tree does not record: which of two signs was
written, how a number was spelled, the carriage returns of a shader block, and whether the operator
of a fixity declaration stood in parentheses.
-/

namespace Marginalia

/-- What a tree says about the tokens at one place. -/
inductive Word where
  /-- One token of a kind and a spelling. -/
  | exact (kind : TokenKind) (lexeme : Text)
  /-- The sign that begins an anonymous function. -/
  | lambda
  /-- The sign between a field and its value. -/
  | assignment
  /-- Any spelling of a number. -/
  | number (literal : Literal)
  /-- Any spelling of a precedence. -/
  | precedence (value : Nat)
  /-- A shader block, up to its carriage returns. -/
  | shader (source : Text)
  /-- An operator, perhaps in parentheses. -/
  | operatorName (symbol : Text)
deriving DecidableEq, Repr

/-- The token is of a kind and has a spelling. -/
def Token.Is (token : Token) (kind : TokenKind) (lexeme : Text) : Prop :=
  token.kind = kind ∧ token.lexeme = lexeme

namespace Word

/-- A reserved word. -/
def keyword (word : String) : Word := exact .keyword word

/-- Punctuation that has only one spelling. -/
def mark (kind : TokenKind) : Word := exact kind (kind.mark?.elim [] Text.ofString)

/-- A lower-case name. -/
def lower (name : Text) : Word := exact .lowerIdentifier name

/-- An upper-case name. -/
def upper (name : Text) : Word := exact .upperIdentifier name

/-- An operator. -/
def operator (symbol : Text) : Word := exact .operator symbol

/-- The tokens spell the word. -/
def Spells (word : Word) (tokens : List Token) : Prop :=
  match word with
  | exact kind lexeme => ∃ token, tokens = [token] ∧ token.Is kind lexeme
  | lambda => ∃ token, tokens = [token] ∧ (token.Is .backslash "\\" ∨ token.Is .backslash "λ")
  | assignment => ∃ token, tokens = [token] ∧ (token.Is .equals "=" ∨ token.Is .colon ":")
  | number literal =>
    ∃ token, tokens = [token] ∧ token.kind = .number ∧ Literal.ofNumber? token.lexeme = some literal
  | precedence value =>
    ∃ token, tokens = [token] ∧ token.kind = .number ∧ precedenceOf? token.lexeme = some value
  | shader source =>
    ∃ token body, tokens = [token] ∧ token.Is .shader
        (Text.ofString Scan.shaderOpening ++ (body ++ Text.ofString Scan.shaderClosing)) ∧
      body.filter (· != Text.carriageReturn) = source
  | operatorName symbol =>
    (∃ token, tokens = [token] ∧ token.Is .operator symbol) ∨
      ∃ opening token closing, tokens = [opening, token, closing] ∧ opening.Is .leftParen "(" ∧
        token.Is .operator symbol ∧ closing.Is .rightParen ")"

end Word

/-- The tokens spell the words, one after the other. -/
inductive Spelled : List Word → List Token → Prop where
  | nil : Spelled [] []
  | cons {word : Word} {words : List Word} {tokens rest : List Token} (spells : word.Spells tokens)
      (further : Spelled words rest) : Spelled (word :: words) (tokens ++ rest)

namespace Spelled

/-- What spells a word spells the list of it. -/
theorem single {word : Word} {tokens : List Token} (spells : word.Spells tokens) :
    Spelled [word] tokens := by
  simpa using Spelled.cons spells .nil

/-- Spellings follow each other as the words do. -/
theorem append {first second : List Word} {tokens rest : List Token}
    (spelled : Spelled first tokens) (further : Spelled second rest) :
    Spelled (first ++ second) (tokens ++ rest) := by
  induction spelled with
  | nil => exact further
  | cons spells _ ih =>
    rw [List.append_assoc]
    exact .cons spells ih

end Spelled

/-- The tokens that are comments, as comments. -/
def commentsOf (tokens : List Token) : Comments := (tokens.filter (·.isComment)).map Comment.ofToken

/-- The tokens that belong to the tree: neither comments nor the end of the source. -/
def solidOf (tokens : List Token) : List Token :=
  tokens.filter fun token => !token.isComment && token.kind != .eof

/-- Comments of tokens follow each other as the tokens do. -/
@[simp]
theorem commentsOf_append (first second : List Token) :
    commentsOf (first ++ second) = commentsOf first ++ commentsOf second := by
  simp [commentsOf]

/-- Tokens that are no comments follow each other as the tokens do. -/
@[simp]
theorem solidOf_append (first second : List Token) :
    solidOf (first ++ second) = solidOf first ++ solidOf second := by
  simp [solidOf]

end Marginalia
