import Marginalia.Grammar.Chain
import Marginalia.Grammar.Pattern
import Marginalia.Grammar.TypeExpression

/-!
# The grammar of expressions

    expression  = let | case | if | lambda | chain(application, let | case | if | lambda)
    application = term {term}
    term        = literal | list | accessor | negation | (name | parentheses | record) {"." name}

Each rule is written over the parsers of the expressions and terms inside it, and the knot is tied
level by level in `Nested.within`.
-/

namespace Marginalia.Grammar
open Marginalia.Parser

/-- A located node as an expression. -/
def expressionOf (node : Parser (ExpressionNode Expression)) : Parser Expression := do
  let located ← located node
  return ⟨located.span, located.value⟩

/-! ## Terms -/

/-- A literal term. -/
def literalTerm : Parser Expression := expressionOf do return .literal (← literal)

/-- The node of a name. The unqualified constructors `True` and `False` are literals. -/
def referenceNode (reference : Reference) : ExpressionNode Expression :=
  if reference = .tag ⟨[], "True"⟩ then .literal (.boolean true)
  else if reference = .tag ⟨[], "False"⟩ then .literal (.boolean false)
  else .reference reference

/-- A name as a term. -/
def nameTerm : Parser Expression := expressionOf do return referenceNode (← nameReference)

/-- A dot and a field: the function that reads the field. -/
def accessorTerm : Parser Expression :=
  attempt (expressionOf do
    let _ ← dot
    return .accessor (← lowerName))

/-- A minus sign directly before a term. -/
def negationTerm (term : Parser Expression) : Parser Expression :=
  attempt (expressionOf do
    let _ ← operator "-"
    return .negation (← term))

/-- A field read from a record, and the position after it. -/
def fieldAccess : Parser (Text × Position) := do
  let field ← dottedLowerName
  return (field, ← position)

/-- A term and any number of fields read from it, each directly after a dot. -/
def accessible (target : Parser Expression) : Parser Expression := do
  let start ← position
  let expression ← target
  let fields ← many fieldAccess
  return fields.foldl (fun record (field, stop) => ⟨⟨start, stop⟩, .access record field⟩) expression

/-- A block of shader source, which keeps no carriage returns. -/
def shaderTerm : Parser Expression :=
  expressionOf do
    let token ← token .shader "a shader block"
    return .shader ((token.lexeme.trimEnds 6 2).filter (· != Text.carriageReturn))

/-- Two bounds in square brackets. -/
def rangeTerm (expression : Parser Expression) : Parser Expression :=
  expressionOf do
    let ((low, high), multiline) ← trackNewline do
      let _ ← token .leftBracket "'['"
      let low ← padded expression
      let _ ← token .range "'..'"
      let high ← padded expression
      let _ ← token .rightBracket "']'"
      return (low, high)
    return .range low high multiline

/-- A list of elements. -/
def listTerm (expression : Parser Expression) : Parser Expression :=
  expressionOf do
    let (contents, multiline) ← group .leftBracket .rightBracket expression "']'"
    return .list contents.items contents.trailing multiline

/-- Everything that begins with a square bracket. -/
def bracketTerm (expression : Parser Expression) : Parser Expression :=
  choice [shaderTerm, attempt (rangeTerm expression), listTerm expression]

/-- An operator in parentheses, as a value. -/
def operatorTerm : Parser Expression :=
  attempt (expressionOf do return .reference (.operator (← parenthesizedOperator)))

/-- Commas in parentheses: the function that makes a tuple. -/
def tupleFunctionTerm : Parser Expression :=
  attempt (expressionOf do
    let comma := token .comma "','"
    let _ ← token .leftParen "'('"
    let _ ← comma
    let further ← many comma
    let _ ← token .rightParen "')'"
    return .tupleFunction (further.length + 2))

/-- Expressions in parentheses: the unit, one expression, or a tuple. -/
def tupleTerm (expression : Parser Expression) : Parser Expression :=
  expressionOf do
    let (contents, multiline) ← group .leftParen .rightParen expression "')'"
    match contents.items with
    | [] => return .unit contents.trailing
    | [only] => return .parens only
    | elements => return .tuple elements multiline

/-- Everything that begins with a parenthesis. -/
def parensTerm (expression : Parser Expression) : Parser Expression :=
  choice [operatorTerm, tupleFunctionTerm, tupleTerm expression]

/-- A field name and its value; a colon is accepted in place of the equals sign. -/
def recordPair (expression : Parser Expression) : Parser (RecordPair Expression) := do
  let key ← lowerName
  let ((before, after), multiline) ← trackNewline do
    let before ← whitespace
    let _ ← satisfy (fun token => token.kind == .equals || token.kind == .colon) "'='"
    return (before, ← whitespace)
  let value ← expression
  return ⟨.post key before, .pre after value, multiline⟩

/-- A record or a record update. -/
def recordTerm (expression : Parser Expression) : Parser Expression :=
  expressionOf do
    let ((base, fields), multiline) ← trackNewline do
      let _ ← token .leftBrace "'\x7b'"
      let base ← optional recordBase
      return (base, ← separated .rightBrace (recordPair expression) "'\x7d'")
    return .record base fields.items fields.trailing multiline

/-- A term: an expression that can be an argument without parentheses. -/
def termOver (expression term : Parser Expression) : Parser Expression :=
  expecting "an expression" (choice
    [literalTerm, bracketTerm expression, accessorTerm, negationTerm term,
      accessible (choice [nameTerm, parensTerm expression, recordTerm expression])])

/-! ## Applications and chains -/

/-- Where an application breaks lines, from whether its head, its first argument and any further
argument crosses a line break. -/
def applicationLayout (head first : Bool) (rest : List Bool) : ApplicationLayout :=
  if head || first then .splitFirst else .joinFirst (.ofCrossed rest.or)

/-- A term applied to the terms that follow it past the reference of indentation. -/
def application (term : Parser Expression) : Parser Expression :=
  expecting "an expression" do
    let start ← position
    let (head, headCrossed) ← trackNewline term
    match ← many (trackNewline (spacedArgument term)) with
    | [] => return head
    | first :: rest =>
      let layout := applicationLayout headCrossed first.2 (rest.map (·.2))
      return ⟨⟨start, ← position⟩, .application head ((first :: rest).map (·.1)) layout⟩

/-- A chain of operators; a single operand is that operand itself. -/
def chainExpression (term last : Parser Expression) : Parser Expression := do
  let chain ← operatorChain (application term) last infixOperator
  match chain.value.clauses with
  | [] => return chain.value.left
  | clauses => return ⟨chain.span, .chain chain.value.left clauses chain.value.layout⟩

/-! ## Conditionals -/

/-- A condition and its body, with the comments around both. -/
def ifClause (expression : Parser Expression) : Parser (IfClause Expression) := do
  let _ ← attempt (keyword "if")
  let preCondition ← whitespace
  let condition ← expression
  let postCondition ← whitespace
  let _ ← keyword "then"
  let preBody ← whitespace
  let body ← expression
  let postBody ← whitespace
  return ⟨⟨preCondition, condition, postCondition⟩, ⟨preBody, body, postBody⟩⟩

/-- The word `else` and the comments after it. -/
def elseKeyword : Parser Comments := do
  let _ ← expecting "an 'else' branch" (keyword "else")
  whitespace

/-- A further condition, or nothing at all. -/
def elseIfClause (expression : Parser Expression) : Parser (Commented (IfClause Expression)) :=
  attempt do
    let comments ← elseKeyword
    return .pre comments (← ifClause expression)

/-- A conditional. -/
def conditional (expression : Parser Expression) : Parser Expression :=
  expressionOf do
    let first ← ifClause expression
    let rest ← many (elseIfClause expression)
    let comments ← elseKeyword
    return .conditional first rest (.pre comments (← expression))

/-! ## Functions -/

/-- An arrow and the comments on both sides of it. -/
def paddedArrow : Parser (Commented Token) := padded (token .arrow "'->'")

/-- An anonymous function. -/
def lambda (expression : Parser Expression) : Parser Expression :=
  expressionOf do
    let ((arguments, comments, body), multiline) ← trackNewline do
      let _ ← expecting "an anonymous function" (token .backslash "'\\'")
      let arguments ← spaced patternTerm
      if arguments.isEmpty then
        fail ["an argument pattern"]
      else
        let arrow ← paddedArrow
        return (arguments, arrow.before ++ arrow.after, ← expression)
    return .lambda arguments comments body multiline

/-! ## Case distinctions -/

/-- What stands before the body of a branch: comments, an aligned pattern and an arrow. -/
def branchHead : Parser (Comments × Pattern × Commented Token) :=
  attempt do
    let comments ← whitespace
    aligned
    let pattern ← pattern
    return (comments, pattern, ← paddedArrow)

/-- A branch, which begins with its pattern; comments that were read before it lead. -/
def branch (expression : Parser Expression) (leading : Comments) :
    Parser (Located (Branch Expression)) := do
  let (comments, pattern, arrow) ← branchHead
  let body ← expression
  return ⟨⟨pattern.span.start, ← position⟩,
    ⟨leading ++ comments, pattern, arrow.before, arrow.after, body⟩⟩

/-- A case distinction, whose branches are aligned with the first one. -/
def caseDistinction (expression : Parser Expression) : Parser Expression :=
  expressionOf do
    let _ ← attempt (keyword "case")
    let (subject, multiline) ← trackNewline (padded expression)
    let _ ← keyword "of"
    let leading ← whitespace
    let branches ← withReference do
      let first ← branch expression leading
      return first :: (← many (branch expression []))
    return .caseOf subject multiline branches

/-! ## Declarations -/

/-- The name or pattern that is defined and its arguments, which only a name or an operator
takes. -/
def definitionHead : Parser (Pattern × List (Commented Pattern)) :=
  expecting "the definition of a variable (x = ...)" do
    let defined ← choice
      [attempt patternTerm, patternOf do return .operator (← parenthesizedOperator)]
    match defined.node with
    | .name _ | .operator _ => return (defined, ← spaced patternTerm)
    | _ => return (defined, [])

/-- A value or function definition. -/
def definition (expression : Parser Expression) : Parser (Definition Expression) :=
  withReference do
    let (defined, arguments) ← definitionHead
    let equals ← padded (token .equals "'='")
    return ⟨defined, arguments, equals.before ++ equals.after, ← expression⟩

/-- The annotated name and the colon after it, or nothing at all. -/
def signatureHead : Parser (AnnotatedName × Commented Token) :=
  attempt do
    let name ← choice
      [do return .value (← lowerName),
        do return .operator (← parenthesizedOperator)]
    return (name, ← padded (token .colon "':'"))

/-- A type signature. -/
def signature : Parser Signature := do
  let (name, colon) ← signatureHead
  let type ← typeExpression
  return ⟨.post name colon.before, .pre colon.after type⟩

/-- A type signature or a definition. -/
def declaration (expression : Parser Expression) : Parser (Declaration Expression) :=
  choice
    [do return .signature (← signature),
      do return .definition (← definition expression)]

/-- The comments at a place in a `let`, as entries that all have the span of the place. -/
def letComments : Parser (List (Located (LetEntry Expression))) := do
  let comments ← located whitespace
  return comments.value.map fun comment => ⟨comments.span, .comment comment⟩

/-- An aligned declaration and the comments after it. -/
def letBlock (expression : Parser Expression) : Parser (List (Located (LetEntry Expression))) := do
  aligned
  let entry ← located do return .declaration (← located (declaration expression))
  return entry :: (← letComments)

/-- A `let`, whose declarations are aligned with the first one. -/
def letExpression (expression : Parser Expression) : Parser Expression :=
  expressionOf do
    let _ ← attempt (keyword "let")
    let leading ← letComments
    let blocks ← withReference do
      let first ← letBlock expression
      return first :: (← many (letBlock expression))
    let _ ← keyword "in"
    let bodyComments ← whitespace
    return .letIn (leading ++ blocks.flatten) bodyComments (← expression)

/-! ## Expressions -/

/-- The expressions that extend as far right as possible. -/
def openEnded (expression : Parser Expression) : List (Parser Expression) :=
  [letExpression expression, caseDistinction expression, conditional expression, lambda expression]

/-- An expression over the expressions and terms inside it. -/
def expressionOver (expression term : Parser Expression) : Parser Expression :=
  expecting "an expression"
    (choice (openEnded expression ++ [chainExpression term (choice (openEnded expression))]))

/-- The parsers of what may stand at one level. -/
structure Nested where
  /-- Any expression. -/
  expression : Parser Expression
  /-- An expression that can be an argument without parentheses. -/
  term : Parser Expression

/-- What may stand one level further out. -/
def Nested.outer (inner : Nested) : Nested :=
  let term := termOver inner.expression inner.term
  ⟨expressionOver inner.expression term, term⟩

/-- What may stand with at most so many levels inside it. -/
def Nested.within : Nat → Nested
  | 0 => ⟨interrupt .exhausted, interrupt .exhausted⟩
  | levels + 1 => (within levels).outer

/-- A term: an expression that can be an argument without parentheses. -/
def term : Parser Expression := fun input => (Nested.within input.nestingLimit).term input

/-- Any expression. -/
def expression : Parser Expression :=
  fun input => (Nested.within input.nestingLimit).expression input

end Marginalia.Grammar
