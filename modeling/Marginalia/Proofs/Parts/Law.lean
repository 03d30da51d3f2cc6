import Marginalia.Proofs.Lockstep.Expression
import Marginalia.Proofs.Spelling.Word
import Marginalia.Proofs.Writing.Normal

/-!
# Parts of a tree and their laws

Every part of a tree stands somewhere in a layout: arguments are measured from the column of the
innermost block around them. Here are the parts inside a part, each with the column that it is
measured from, and six laws that a part can obey: its layout flags tell the line breaks of the
source, it is in normal form, it keeps to the offside rule, its minus signs are negations or
operators as blanks and columns tell, its words stand in the source as they are told, and its
operands and operators stand one behind the other.
-/

namespace Marginalia

/-! ## Parts -/

/-- Anything in a tree that a law is about. -/
inductive Part where
  | expression (expression : Expression)
  | pattern (pattern : Pattern)
  | type (type : TypeExpression)
  | definition (definition : Definition Expression)
  | variant (variant : Located ConstructorVariant)
  | entry (entry : Located TopLevel)

/-- A part and the column that its indentation is measured from. -/
structure Placed where
  /-- The column at which the innermost block around the part starts. -/
  reference : Nat
  /-- The part. -/
  part : Part

/-- The entry is a declaration and no comment. -/
def LetEntry.isDeclaration : LetEntry ε → Bool
  | declaration _ => true
  | comment _ => false

/-- The branches of a case distinction are measured from its first pattern. -/
def caseReference (branches : List (Located (Branch ε))) : Nat :=
  (branches.head?.map (·.value.pattern.span.start.column)).getD 1

/-- The declarations of a `let` are measured from the first one. -/
def letReference (entries : List (Located (LetEntry ε))) : Nat :=
  ((entries.find? (·.value.isDeclaration)).map (·.span.start.column)).getD 1

/-- Branches that begin in one column are measured from it. -/
theorem caseReference_eq {branches : List (Located (Branch ε))}
    {column : Nat} (some : branches ≠ [])
    (aligned : ∀ branch ∈ branches, branch.value.pattern.span.start.column = column) :
    caseReference branches = column := by
  cases branches with
  | nil => exact absurd rfl some
  | cons first rest => exact aligned first (.head _)

/-- Declarations that begin in one column are measured from it. -/
theorem letReference_eq {entries : List (Located (LetEntry ε))} {column : Nat}
    (some : ∃ entry ∈ entries, entry.value.isDeclaration = true) (aligned : ∀ entry ∈ entries,
      entry.value.isDeclaration = true → entry.span.start.column = column) :
    letReference entries = column := by
  obtain ⟨first, found⟩ := Option.isSome_iff_exists.mp (List.find?_isSome.mpr some)
  have isDeclaration : first.value.isDeclaration = true := by simpa using List.find?_some found
  rw [letReference, found]
  exact aligned first (List.mem_of_find?_eq_some found) isDeclaration

/-- The definition, or the type of a signature. -/
def Declaration.inside (reference : Nat) : Declaration Expression → List Placed
  | definition d => [⟨reference, .definition d⟩]
  | signature s => [⟨reference, .type s.type.value⟩]

/-- The parts of the declaration, if the entry is one. -/
def LetEntry.inside (reference : Nat) : LetEntry Expression → List Placed
  | declaration d => d.value.inside reference
  | comment _ => []

/-- The parts that an expression is made of. The body of a `let` is measured as the `let` itself
is. -/
def Expression.inside (reference : Nat) (expression : Expression) : List Placed :=
  match expression.node with
  | .caseOf subject _ branches =>
    ⟨reference, .expression subject.value⟩ :: branches.flatMap fun branch =>
      [⟨caseReference branches, .pattern branch.value.pattern⟩,
        ⟨caseReference branches, .expression branch.value.body⟩]
  | .letIn entries _ body =>
    entries.flatMap (·.value.inside (letReference entries)) ++ [⟨reference, .expression body⟩]
  | .lambda arguments _ body _ =>
    arguments.map (⟨reference, .pattern ·.value⟩) ++ [⟨reference, .expression body⟩]
  | node => node.children.map (⟨reference, .expression ·⟩)

/-- The parts that a definition is made of, measured from its head. -/
def Definition.inside (definition : Definition Expression) : List Placed :=
  let reference := definition.pattern.span.start.column
  ⟨reference, .pattern definition.pattern⟩ :: definition.arguments.map
    (⟨reference, .pattern ·.value⟩) ++ [⟨reference, .expression definition.body⟩]

/-- The parts that an entry of a module is made of. -/
def TopLevel.placed (reference : Nat) : TopLevel → List Placed
  | declaration d => d.inside reference
  | typeAlias a => [⟨reference, .type a.type.value⟩]
  | datatype d => d.variants.map (⟨reference, .variant ·.value⟩)
  | fixity _ | comment _ => []

namespace Placed

/-- The parts that a part is made of. -/
def inside (placed : Placed) : List Placed :=
  match placed.part with
  | .expression e => e.inside placed.reference
  | .pattern p => p.node.children.map (⟨placed.reference, .pattern ·⟩)
  | .type t => t.node.children.map (⟨placed.reference, .type ·⟩)
  | .definition d => d.inside
  | .variant v => v.value.arguments.map (⟨placed.reference, .type ·.value⟩)
  | .entry e => e.value.placed placed.reference

/-- The part is the other one or stands somewhere inside it. -/
inductive Within : Placed → Placed → Prop where
  | refl (placed : Placed) : Within placed placed
  | inside {inner middle outer : Placed} (within : Within inner middle)
      (member : middle ∈ outer.inside) : Within inner outer

/-- A law holds of a part and of everything inside it. -/
def Everywhere (law : Placed → Prop) (placed : Placed) : Prop :=
  ∀ inner, Within inner placed → law inner

variable {law other : Placed → Prop} {placed : Placed}

/-- A law holds everywhere in a part if it holds of the part and everywhere in what the part is made
of. -/
theorem Everywhere.intro (here : law placed)
    (inside : ∀ inner ∈ placed.inside, Everywhere law inner) : Everywhere law placed := by
  intro inner within
  cases within with
  | refl => exact here
  | inside within member => exact inside _ member inner within

end Placed

/-! ## Places in the source -/

/-- The stretch of a source between two positions has a line break in it. -/
def Text.crosses (source : Text) (start stop : Position) : Bool :=
  (source.slice start.offset stop.offset).hasNewline

/-- The first token at a place or behind it that is no comment. -/
def solidFrom (tokens : List Token) (place : Position) : Option Token :=
  tokens.find? fun token => !token.isComment && decide (place.offset ≤ token.span.start.offset)

/-- What is found from a place on is not before it. -/
theorem solidFrom_le {tokens : List Token} {place stop : Position}
    (found : ∃ token, solidFrom tokens place = some token ∧ token.span.start = stop) :
    place.offset ≤ stop.offset := by
  obtain ⟨token, isFirst, rfl⟩ := found
  have holds := List.find?_some isFirst
  simp only [Bool.and_eq_true, decide_eq_true_eq] at holds
  exact holds.2

/-! ## Layout flags -/

/-- A field tells whether a line break stands between the token of its name and its value. The two
tokens behind the name are the sign and the first one of the value. -/
def RecordPair.Flagged (source : Text) (tokens : List Token)
    (pair : RecordPair Expression) : Prop :=
  ∃ key ∈ tokens, ∃ sign first, key.Is .lowerIdentifier pair.key.value ∧
    solidFrom tokens key.span.stop = some sign ∧ (sign.kind = .equals ∨ sign.kind = .colon) ∧
    solidFrom tokens sign.span.stop = some first ∧ first.span.start = pair.value.value.span.start ∧
    pair.multiline = source.crosses key.span.stop pair.value.value.span.start

/-- The layout flags of an expression tell the line breaks of its source. -/
def Expression.Flagged (source : Text) (tokens : List Token) (expression : Expression) : Prop :=
  let span := expression.span
  match expression.node with
  | .range _ _ multiline | .list _ _ multiline | .tuple _ multiline | .lambda _ _ _ multiline =>
    multiline = source.crosses span.start span.stop
  | .record _ fields _ multiline =>
    multiline = source.crosses span.start span.stop ∧ ∀ field ∈ fields,
      field.value.Flagged source tokens
  | .chain _ _ layout =>
    layout = if source.crosses span.start span.stop then .splitAll else .joinAll
  | .caseOf subject multiline _ =>
    ∃ word separator, solidFrom tokens span.start = some word ∧ word.span.start = span.start ∧
      word.Is .keyword "case" ∧ solidFrom tokens subject.value.span.stop = some separator ∧
      separator.Is .keyword "of" ∧ multiline = source.crosses word.span.stop separator.span.start
  | .application _ arguments layout =>
    ∃ first ∈ arguments.head?, layout =
      if source.crosses span.start first.value.span.stop then .splitFirst
      else .joinFirst (if source.crosses first.value.span.stop span.stop then .splitAll
          else .joinAll)
  | _ => True

/-- The layout flags of a type tell the line breaks of its source. -/
def TypeExpression.Flagged (source : Text) (type : TypeExpression) : Prop :=
  match type.node with
  | .record _ _ _ multiline | .function _ _ multiline =>
    multiline = source.crosses type.span.start type.span.stop
  | _ => True

/-- The layout flags of a part tell the line breaks of its source; only expressions and types have
any. -/
def Part.Flagged (source : Text) (tokens : List Token) : Part → Prop
  | expression e => e.Flagged source tokens
  | type t => t.Flagged source
  | _ => True

/-! ## Normal form -/

/-- The text is a lexeme of an operator, made of operator characters, and is no punctuation. -/
def IsSymbol (symbol : Text) : Prop :=
  IsLexeme .operator symbol ∧ symbol ≠ [] ∧ (∀ u ∈ symbol, u.isOperator = true) ∧
    ∀ entry ∈ reservedOperators, symbol ≠ Text.ofString entry.1

/-- An expression in normal form. -/
def ExpressionNode.Canonical : ExpressionNode Expression → Prop
  | application head arguments _ =>
    arguments ≠ [] ∧ head.node.isTerm = true ∧ ∀ argument ∈ arguments,
      argument.value.node.isTerm = true
  | chain left clauses _ =>
    clauses ≠ [] ∧ left.node.isOperand = true ∧
      (∀ clause ∈ clauses.dropLast, clause.expression.node.isOperand = true) ∧
      (∀ clause ∈ clauses, clause.expression.node.isChain = false) ∧
      ∀ clause ∈ clauses, ∃ symbol, clause.operator.value = .operator symbol ∧ IsSymbol symbol
  | tuple elements _ => 2 ≤ elements.length
  | tupleFunction arity => 2 ≤ arity
  | caseOf _ _ branches => branches ≠ []
  | letIn entries _ _ => ∃ entry ∈ entries, entry.value.isDeclaration = true
  | lambda arguments _ _ _ =>
    arguments ≠ [] ∧ ∀ argument ∈ arguments, argument.value.node.isTerm = true
  | conditional _ _ final => final.value.node.isConditional = false
  | negation operand => operand.node.isNegatable = true
  | access target _ => target.node.isTarget = true
  | reference r => r ≠ .tag ⟨[], "True"⟩ ∧ r ≠ .tag ⟨[], "False"⟩
  | _ => True

/-- A pattern in normal form. -/
def PatternNode.Canonical : PatternNode Pattern → Prop
  | tuple elements => 2 ≤ elements.length
  | cons first rest => rest ≠ [] ∧ ∀ operand ∈ first :: rest, operand.value.node.isOperand = true
  | data _ arguments => ∀ argument ∈ arguments, argument.value.node.isTerm = true
  | list elements => elements ≠ []
  | record fields => fields ≠ []
  | named pattern _ => pattern.value.node.isNamed = false
  | _ => True

/-- A type in normal form. -/
def TypeNode.Canonical : TypeNode TypeExpression → Prop
  | tuple elements => 2 ≤ elements.length
  | function first rest _ =>
    rest ≠ [] ∧ ∀ operand ∈ first :: rest, operand.value.node.isOperand = true
  | construction _ arguments => ∀ argument ∈ arguments, argument.value.node.isTerm = true
  | _ => True

/-- A definition in normal form. -/
def Definition.Canonical (definition : Definition Expression) : Prop :=
  (definition.arguments ≠ [] → Grammar.takesArguments definition.pattern.node = true) ∧
    ∀ argument ∈ definition.arguments, argument.value.node.isTerm = true

/-- A part in normal form. -/
def Part.Canonical : Part → Prop
  | expression e => e.node.Canonical
  | pattern p => p.node.Canonical
  | type t => t.node.Canonical
  | definition d => d.Canonical
  | variant v => ∀ argument ∈ v.value.arguments, argument.value.node.isTerm = true
  | entry _ => True

/-! ## The offside rule -/

/-- From a place on, the names stand as tokens one behind the other, all of them past a column. -/
inductive NamedPast (tokens : List Token) (column : Nat) :
    Position → List Text → Position → Prop where
  | nil (place : Position) : NamedPast tokens column place [] place
  | cons {start stop : Position} {token : Token} {names : List Text}
      (found : solidFrom tokens start = some token) (isName : token.kind = .lowerIdentifier)
      (past : column < token.span.start.column)
      (further : NamedPast tokens column token.span.stop names stop) :
      NamedPast tokens column start (token.lexeme :: names) stop

/-- The tokens at the front of a type's declaration: a word, perhaps another one, the name, its
parameters, which all stand past a column, and the equals sign. -/
def ParametersPast (tokens : List Token) (column : Nat) (start : Position) (isAlias : Bool)
    (name : Text) (parameters : List Text) : Prop :=
  ∃ word, solidFrom tokens start = some word ∧ word.span.start = start ∧ word.Is .keyword "type" ∧
    ∃ place, (if isAlias then ∃ second, solidFrom tokens word.span.stop = some second ∧
        second.Is .lowerIdentifier "alias" ∧ place = second.span.stop
      else place = word.span.stop) ∧
    ∃ upper, solidFrom tokens place = some upper ∧ upper.Is .upperIdentifier name ∧
    ∃ stop, NamedPast tokens column upper.span.stop parameters stop ∧
    ∃ sign, solidFrom tokens stop = some sign ∧ sign.kind = .equals

/-- An expression keeps to the offside rule: arguments stand past the reference, and blocks are
aligned. -/
def ExpressionNode.Offside (reference : Nat) : ExpressionNode Expression → Prop
  | application _ arguments _ =>
    ∀ argument ∈ arguments, reference < argument.value.span.start.column
  | lambda arguments _ _ _ => ∀ argument ∈ arguments, reference < argument.value.span.start.column
  | caseOf _ _ branches =>
    ∀ branch ∈ branches, branch.value.pattern.span.start.column = caseReference branches
  | letIn entries _ _ =>
    ∀ entry ∈ entries, entry.value.isDeclaration = true →
      entry.span.start.column = letReference entries
  | _ => True

/-- An entry of a module keeps to the offside rule: what is no comment begins in the first column,
and parameters of a type stand past it. -/
def TopLevel.Offside (tokens : List Token) (reference : Nat) (span : Span) : TopLevel → Prop
  | comment _ => True
  | typeAlias a => span.start.column = 1 ∧
    ParametersPast tokens reference span.start true a.name.value (a.parameters.map (·.value))
  | datatype d => span.start.column = 1 ∧
    ParametersPast tokens reference span.start false d.name.value (d.parameters.map (·.value))
  | declaration _ | fixity _ => span.start.column = 1

/-- A part keeps to the offside rule. -/
def Placed.Offside (tokens : List Token) (placed : Placed) : Prop :=
  match placed.part with
  | .expression e => e.node.Offside placed.reference
  | .pattern ⟨_, .data _ arguments⟩ =>
    ∀ argument ∈ arguments, placed.reference < argument.value.span.start.column
  | .type ⟨_, .construction _ arguments⟩ =>
    ∀ argument ∈ arguments, placed.reference < argument.value.span.start.column
  | .definition d =>
    ∀ argument ∈ d.arguments, d.pattern.span.start.column < argument.value.span.start.column
  | .variant v =>
    ∀ argument ∈ v.value.arguments, placed.reference < argument.value.span.start.column
  | .entry e => e.value.Offside tokens placed.reference e.span
  | _ => True

/-! ## Minus signs -/

/-- The expression is a minus sign before a term. -/
def ExpressionNode.isNegation : ExpressionNode ε → Bool
  | negation _ => true
  | _ => false

/-- A negation that is an argument does not stand directly behind the expression before it. -/
def Expression.Apart (argument previous : Expression) : Prop :=
  argument.node.isNegation = true → argument.span.start.offset ≠ previous.span.stop.offset

/-- A minus sign that is an operator, with an application or a term directly behind it, stands
directly behind the operand before it too, or it does not stand past the column. -/
def Clause.Subtracts (reference : Nat) (clause : Clause Reference Expression)
    (previous : Expression) : Prop :=
  clause.operator.value = .operator "-" → clause.expression.node.isOperand = true →
    clause.expression.span.start.offset = clause.operator.span.stop.offset →
    clause.operator.span.start.offset = previous.span.stop.offset ∨
    clause.operator.span.start.column ≤ reference

/-- Blanks and columns tell whether a minus sign in an expression is a negation or an operator. -/
def Expression.Signed (reference : Nat) (expression : Expression) : Prop :=
  match expression.node with
  | .negation operand => operand.span.start.offset = expression.span.start.offset + 1
  | .application head arguments _ =>
    ∀ pair ∈ (arguments.map (·.value)).zip (head :: arguments.map (·.value)), pair.1.Apart pair.2
  | .chain left clauses _ =>
    ∀ pair ∈ clauses.zip (left :: clauses.map (·.expression)), pair.1.Subtracts reference pair.2
  | _ => True

/-- The minus signs of a part are told; only expressions have any. -/
def Placed.Signed (placed : Placed) : Prop :=
  match placed.part with
  | .expression e => e.Signed placed.reference
  | _ => True

/-! ## Words -/

/-- The text of a source over a span. -/
def Text.over (source : Text) (span : Span) : Text :=
  source.slice span.start.offset span.stop.offset

/-- Between two places stands exactly this text, in which no unit is blank, and no comment. -/
structure Verbatim (source : Text) (tokens : List Token) (start stop : Position)
    (text : Text) : Prop where
  /-- The second place is not before the first one. -/
  le : start.offset ≤ stop.offset
  /-- The text stands between them. -/
  over_eq : source.over ⟨start, stop⟩ = text
  /-- No unit of it is blank. -/
  solid : ∀ u ∈ text, Scan.isBlank u = false
  /-- No unit of it belongs to a comment. -/
  noComment : ∀ token ∈ tokens, token.isComment = true → ∀ offset, start.offset ≤ offset →
      offset < stop.offset → ¬ (token.span.start.offset ≤ offset ∧ offset < token.span.stop.offset)

/-- How a name is written: its parts joined by dots, or the symbol of an operator in parentheses. -/
def Reference.spelling : Reference → Text
  | value name | tag name => (Text.ofString ".").intercalate name.parts
  | operator symbol => "(" ++ symbol ++ ")"

/-- The words of an expression stand in its source as the node tells them, with nothing between the
words of one name. Signs stand directly before or behind the expression that they belong to. A
number may be spelled in several ways, and a shader block has lost its carriage returns. -/
def Expression.Echoes (source : Text) (tokens : List Token) (expression : Expression) : Prop :=
  let span := expression.span
  let stands := Verbatim source tokens
  match expression.node with
  | .reference r => stands span.start span.stop r.spelling
  | .literal l => l.tokenKind ≠ .number → source.over span = l.spelling
  | .accessor field => stands span.start span.stop ("." ++ field)
  | .tupleFunction arity =>
    let commas : Text := List.replicate (arity - 1) (.ofChar ',')
    stands span.start span.stop ("(" ++ commas ++ ")")
  | .negation operand => stands span.start operand.span.start "-" ∧ operand.span.stop = span.stop ∧
    source.over span = "-" ++ source.over operand.span
  | .access target field =>
    target.span.start = span.start ∧ stands target.span.stop span.stop ("." ++ field) ∧
      source.over span = source.over target.span ++ "." ++ field
  | .chain _ clauses _ => ∀ clause ∈ clauses, ∃ symbol, clause.operator.value = .operator symbol ∧
    stands clause.operator.span.start clause.operator.span.stop symbol
  | .shader body => (source.over span).filter (· != Text.carriageReturn) = "[glsl|" ++ body ++ "|]"
  | _ => True

/-- The words of a pattern stand in its source as the node tells them. -/
def Pattern.Echoes (source : Text) (tokens : List Token) (pattern : Pattern) : Prop :=
  let span := pattern.span
  match pattern.node with
  | .name n => Verbatim source tokens span.start span.stop n
  | .operator symbol => Verbatim source tokens span.start span.stop ("(" ++ symbol ++ ")")
  | .literal l => l.tokenKind ≠ .number → source.over span = l.spelling
  | _ => True

/-- The name of a type stands in its source as the node tells it. -/
def TypeExpression.Echoes (source : Text) (tokens : List Token) (type : TypeExpression) : Prop :=
  match type.node with
  | .name n => Verbatim source tokens type.span.start type.span.stop n
  | _ => True

/-- The words of a part stand in its source as they are told; only expressions, patterns and types
have words. -/
def Part.Echoes (source : Text) (tokens : List Token) : Part → Prop
  | expression e => e.Echoes source tokens
  | pattern p => p.Echoes source tokens
  | type t => t.Echoes source tokens
  | _ => True

/-! ## Rows of operands -/

/-- An operator and its right operand stand one behind the other behind a place, and both take up
some of the source. -/
structure Clause.Strung (place : Position) (clause : Clause Reference Expression) : Prop where
  /-- The operator does not begin before the place. -/
  behind : place.offset ≤ clause.operator.span.start.offset
  /-- The operator is not empty. -/
  wide : clause.operator.span.start.offset < clause.operator.span.stop.offset
  /-- The operand does not begin before the operator ends. -/
  before : clause.operator.span.stop.offset ≤ clause.expression.span.start.offset
  /-- The operand is not empty. -/
  operand : clause.expression.span.start.offset < clause.expression.span.stop.offset

/-- Behind a place stand operators and their right operands in a row, and the last operand ends at
another place. -/
inductive StrungFrom : Position → List (Clause Reference Expression) → Position → Prop where
  | nil (place : Position) : StrungFrom place [] place
  | cons {place stop : Position} {clause : Clause Reference Expression}
      {rest : List (Clause Reference Expression)} (strung : clause.Strung place)
      (further : StrungFrom clause.expression.span.stop rest stop) :
      StrungFrom place (clause :: rest) stop

/-- An operand, and the operators and operands behind it, stand in a row over a span. -/
structure StrungOver (span : Span) (left : Expression)
    (clauses : List (Clause Reference Expression)) : Prop where
  /-- The first operand begins where the span does. -/
  starts : left.span.start = span.start
  /-- The first operand is not empty. -/
  wide : left.span.start.offset < left.span.stop.offset
  /-- The others stand behind it up to the end of the span. -/
  clauses : StrungFrom left.span.stop clauses span.stop

/-- The operands and operators of a chain stand in a row over the whole of it. -/
def Expression.Strung (expression : Expression) : Prop :=
  match expression.node with
  | .chain left clauses _ => StrungOver expression.span left clauses
  | _ => True

/-- The operands and operators of a part stand in a row; only expressions have any. -/
def Part.Strung : Part → Prop
  | expression e => e.Strung
  | _ => True

/-! ## All laws -/

/-- A part obeys the six laws. -/
structure Placed.Sound (source : Text) (tokens : List Token) (placed : Placed) : Prop where
  /-- Its layout flags tell the line breaks of the source. -/
  flagged : placed.part.Flagged source tokens
  /-- It is in normal form. -/
  canonical : placed.part.Canonical
  /-- It keeps to the offside rule. -/
  offside : placed.Offside tokens
  /-- Its minus signs are told. -/
  signed : placed.Signed
  /-- Its words stand in the source. -/
  echoes : placed.part.Echoes source tokens
  /-- Its operands and operators stand in a row. -/
  strung : placed.part.Strung

end Marginalia
