import Marginalia.Proofs.Writing.Tree

/-!
# Trees in normal form

The trees that a source without comments on one line is read as, one rule for each form of node.
Case distinctions have one branch and a `let` has one declaration, since further ones would begin
lines of their own. Main statements: the pieces of a tree in normal form can be written, and their
first one tells what sort of tree it is.
-/

namespace Marginalia

open Piece

variable {β π τ ε : Type}

/-! ## Patterns -/

/-- The pattern needs no parentheses as an argument. -/
def PatternNode.isTerm : PatternNode π → Bool
  | operator _ | cons _ _ | named _ _ => false
  | data _ arguments => arguments.isEmpty
  | _ => true

/-- The pattern needs no parentheses beside a `::`. -/
def PatternNode.isOperand : PatternNode π → Bool
  | operator _ | cons _ _ | named _ _ => false
  | _ => true

/-- The pattern has a name for the whole. -/
def PatternNode.isNamed : PatternNode π → Bool
  | named _ _ => true
  | _ => false

/-- The patterns that a source without comments on one line is read as. -/
inductive Pattern.Normal : Pattern → Prop
  | anything {span} : Normal ⟨span, .anything⟩
  | unit {span} : Normal ⟨span, .unit []⟩
  | literal {span l} (lexical : l.Lexical) (plain : l.isPlain = true) : Normal ⟨span, .literal l⟩
  | name {span n} (lexical : IsLexeme .lowerIdentifier n) (binds : n ≠ Text.ofString "_") :
      Normal ⟨span, .name n⟩
  | data {span tag} {arguments : List Pattern} (lexical : tag.Lexical .upperIdentifier)
      (normal : ∀ p ∈ arguments, Normal p) (terms : ∀ p ∈ arguments, p.node.isTerm = true) :
      Normal ⟨span, .data tag (arguments.map .alone)⟩
  | parens {span pattern} (normal : Normal pattern) : Normal ⟨span, .parens (.alone pattern)⟩
  | tuple {span} {elements : List Pattern} (normal : ∀ p ∈ elements, Normal p)
      (several : 2 ≤ elements.length) : Normal ⟨span, .tuple (elements.map .alone)⟩
  | emptyList {span} : Normal ⟨span, .emptyList []⟩
  | list {span} {elements : List Pattern} (normal : ∀ p ∈ elements, Normal p)
      (some : elements ≠ []) : Normal ⟨span, .list (elements.map .alone)⟩
  | cons {span first} {rest : List Pattern} (normal : ∀ p ∈ first :: rest, Normal p)
      (operands : ∀ p ∈ first :: rest, p.node.isOperand = true) (some : rest ≠ []) :
      Normal ⟨span, .cons (.alone first) (rest.map .alone)⟩
  | record {span} {fields : List Text} (lexical : ∀ n ∈ fields, IsLexeme .lowerIdentifier n)
      (some : fields ≠ []) : Normal ⟨span, .record (fields.map .alone)⟩
  | named {span pattern n} (normal : Normal pattern) (unnamed : pattern.node.isNamed = false)
      (lexical : IsLexeme .lowerIdentifier n) : Normal ⟨span, .named (.alone pattern) (.alone n)⟩

/-! ## Types -/

/-- The type needs no parentheses as an argument. -/
def TypeNode.isTerm : TypeNode τ → Bool
  | construction _ arguments => arguments.isEmpty
  | function _ _ _ => false
  | _ => true

/-- The type needs no parentheses beside an arrow. -/
def TypeNode.isOperand : TypeNode τ → Bool
  | function _ _ _ => false
  | _ => true

/-- A field of a record type without comments. -/
def RecordTypeField.plain (field : Text × τ) : RecordTypeField τ := ⟨.alone field.1, .alone field.2⟩

/-- The types that a source without comments on one line is read as. -/
inductive TypeExpression.Normal : TypeExpression → Prop
  | unit {span} : Normal ⟨span, .unit []⟩
  | name {span n} (lexical : IsLexeme .lowerIdentifier n) : Normal ⟨span, .name n⟩
  | construction {span tag} {arguments : List TypeExpression}
      (lexical : tag.Lexical .upperIdentifier) (normal : ∀ t ∈ arguments, Normal t)
      (terms : ∀ t ∈ arguments, t.node.isTerm = true) :
      Normal ⟨span, .construction tag (arguments.map .alone)⟩
  | parens {span type} (normal : Normal type) : Normal ⟨span, .parens (.alone type)⟩
  | tuple {span} {elements : List TypeExpression} (normal : ∀ t ∈ elements, Normal t)
      (several : 2 ≤ elements.length) : Normal ⟨span, .tuple (elements.map .alone)⟩
  | record {span} {base : Option Text} {fields : List (Text × TypeExpression)}
      (lexicalBase : ∀ n ∈ base, IsLexeme .lowerIdentifier n) (lexical : ∀ field ∈ fields,
        IsLexeme .lowerIdentifier field.1) (normal : ∀ field ∈ fields, Normal field.2) : Normal
        ⟨span, .record (base.map .alone) (fields.map fun field => .alone (.plain field)) [] false⟩
  | function {span first} {rest : List TypeExpression} (normal : ∀ t ∈ first :: rest, Normal t)
      (operands : ∀ t ∈ first :: rest, t.node.isOperand = true) (some : rest ≠ []) :
      Normal ⟨span, .function (.alone first) (rest.map .alone) false⟩

/-! ## Expressions -/

namespace ExpressionNode

/-- The expression extends as far right as possible. -/
def isOpenEnded : ExpressionNode ε → Bool
  | conditional .. | caseOf .. | letIn .. | lambda .. => true
  | _ => false

/-- The expression is a chain of operators. -/
def isChain : ExpressionNode ε → Bool
  | chain .. => true
  | _ => false

/-- The expression is an `if`. -/
def isConditional : ExpressionNode ε → Bool
  | conditional .. => true
  | _ => false

/-- The expression needs no parentheses beside an operator, unless it is the last operand. -/
def isOperand : ExpressionNode ε → Bool
  | conditional .. | caseOf .. | letIn .. | lambda .. | chain .. => false
  | _ => true

/-- The expression needs no parentheses as an argument. -/
def isTerm : ExpressionNode ε → Bool
  | conditional .. | caseOf .. | letIn .. | lambda .. | chain .. | application .. => false
  | _ => true

/-- The expression may stand directly behind a minus sign. -/
def isNegatable : ExpressionNode ε → Bool
  | negation _ | accessor _ => false
  | node => node.isTerm

/-- A field may be read from the expression: a lower-case name, anything in parentheses, a record or
a field. -/
def isTarget : ExpressionNode ε → Bool
  | reference (.value _) | reference
        (.operator _) | parens _ | tuple .. | unit _ | tupleFunction _ | record ..
  | access .. => true
  | _ => false

end ExpressionNode

/-- A clause of a chain without comments. -/
def Clause.plain (link : Located Text × ε) : Clause Reference ε :=
  ⟨[], link.1.map .operator, [], link.2⟩

/-- A condition and its body without comments. -/
def IfClause.plain (clause : ε × ε) : IfClause ε := ⟨.alone clause.1, .alone clause.2⟩

/-- A field of a record without comments, on one line. -/
def RecordPair.plain (pair : Text × ε) : RecordPair ε := ⟨.alone pair.1, .alone pair.2, false⟩

/-- The pattern may be defined with the arguments: only a name or an operator takes any. -/
inductive Pattern.Defines : Pattern → List Pattern → Prop
  | name {span n} {arguments : List Pattern} (lexical : IsLexeme .lowerIdentifier n)
      (binds : n ≠ Text.ofString "_") (normal : ∀ p ∈ arguments, p.Normal)
      (terms : ∀ p ∈ arguments, p.node.isTerm = true) : Defines ⟨span, .name n⟩ arguments
  | operator {span symbol} {arguments : List Pattern} (lexical : IsLexeme .operator symbol)
      (normal : ∀ p ∈ arguments, p.Normal) (terms : ∀ p ∈ arguments, p.node.isTerm = true) :
      Defines ⟨span, .operator symbol⟩ arguments
  | pattern {pattern} (normal : pattern.Normal) (term : pattern.node.isTerm = true) :
      Defines pattern []

/-- The expressions that a source without comments on one line is read as, without floating-point
numbers. -/
inductive Expression.Normal : Expression → Prop
  | literal {span l} (lexical : l.Lexical) : Normal ⟨span, .literal l⟩
  | reference {span r} (lexical : r.Lexical)
      (noBoolean : r ≠ .tag ⟨[], Text.ofString "True"⟩ ∧ r ≠ .tag ⟨[], Text.ofString "False"⟩) :
      Normal ⟨span, .reference r⟩
  | negation {span operand} (normal : Normal operand)
      (negatable : operand.node.isNegatable = true) : Normal ⟨span, .negation operand⟩
  | range {span low high} (normalLow : Normal low) (normalHigh : Normal high) :
      Normal ⟨span, .range (.alone low) (.alone high) false⟩
  | list {span} {terms : List Expression} (normal : ∀ e ∈ terms, Normal e) :
      Normal ⟨span, .list (terms.map .alone) [] false⟩
  | application {span head} {arguments : List Expression}
      (normal : ∀ e ∈ head :: arguments, Normal e)
      (terms : ∀ e ∈ head :: arguments, e.node.isTerm = true) (some : arguments ≠ []) :
      Normal ⟨span, .application head (arguments.map .alone) (.joinFirst .joinAll)⟩
  | chain {span left} {inner : List (Located Text × Expression)} {last : Located Text × Expression}
      (normalLeft : Normal left) (operandLeft : left.node.isOperand = true)
      (lexical : ∀ link ∈ inner ++ [last], IsLexeme .operator link.1.value)
      (normal : ∀ link ∈ inner ++ [last], Normal link.2)
      (operands : ∀ link ∈ inner, link.2.node.isOperand = true)
      (notChain : last.2.node.isChain = false) :
      Normal ⟨span, .chain left ((inner ++ [last]).map .plain) .joinAll⟩
  | conditional {span first} {rest : List (Expression × Expression)} {final}
      (normalConditions : ∀ clause ∈ first :: rest, Normal clause.1)
      (normalBodies : ∀ clause ∈ first :: rest, Normal clause.2) (normalFinal : Normal final)
      (notConditional : final.node.isConditional = false) : Normal ⟨span,
        .conditional (.plain first) (rest.map fun clause => .alone (.plain clause)) (.alone final)⟩
  | caseOf {span subject branch} {pattern : Pattern} {body} (normalSubject : Normal subject)
      (normalPattern : pattern.Normal) (normalBody : Normal body) :
      Normal ⟨span, .caseOf (.alone subject) false [⟨branch, ⟨[], pattern, [], [], body⟩⟩]⟩
  | letDefinition {span entry declaration} {pattern : Pattern} {arguments : List Pattern}
      {value body} (defines : pattern.Defines arguments) (normalValue : Normal value)
      (normalBody : Normal body) : Normal ⟨span, .letIn [⟨entry, .declaration
        ⟨declaration, .definition ⟨pattern, arguments.map .alone, [], value⟩⟩⟩] [] body⟩
  | letSignature {span entry declaration} {name : AnnotatedName} {type : TypeExpression} {body}
      (lexical : name.Lexical) (normalType : type.Normal) (normalBody : Normal body) : Normal ⟨span,
        .letIn [⟨entry, .declaration ⟨declaration, .signature ⟨.alone name, .alone type⟩⟩⟩] [] body⟩
  | lambda {span} {arguments : List Pattern} {body} (normalArguments : ∀ p ∈ arguments, p.Normal)
      (terms : ∀ p ∈ arguments, p.node.isTerm = true) (some : arguments ≠ [])
      (normalBody : Normal body) : Normal ⟨span, .lambda (arguments.map .alone) [] body false⟩
  | tuple {span} {elements : List Expression} (normal : ∀ e ∈ elements, Normal e)
      (several : 2 ≤ elements.length) : Normal ⟨span, .tuple (elements.map .alone) false⟩
  | parens {span expression} (normal : Normal expression) :
      Normal ⟨span, .parens (.alone expression)⟩
  | unit {span} : Normal ⟨span, .unit []⟩
  | record {span} {base : Option Text} {fields : List (Text × Expression)}
      (lexicalBase : ∀ n ∈ base, IsLexeme .lowerIdentifier n) (lexical : ∀ field ∈ fields,
        IsLexeme .lowerIdentifier field.1) (normal : ∀ field ∈ fields, Normal field.2) : Normal
        ⟨span, .record (base.map .alone) (fields.map fun field => .alone (.plain field)) [] false⟩
  | access {span target field} (normal : Normal target) (isTarget : target.node.isTarget = true)
      (lexical : IsLexeme .lowerIdentifier field) : Normal ⟨span, .access target field⟩
  | accessor {span field} (lexical : IsLexeme .lowerIdentifier field) :
      Normal ⟨span, .accessor field⟩
  | tupleFunction {span arity} (several : 2 ≤ arity) : Normal ⟨span, .tupleFunction arity⟩
  | shader {span source} (lexical : IsLexeme .shader (Text.ofString Scan.shaderOpening ++
        (source ++ Text.ofString Scan.shaderClosing))) (oneLine : Text.newline ∉ source)
      (noReturn : Text.carriageReturn ∉ source) : Normal ⟨span, .shader source⟩

/-! ## Openings -/

namespace Piece

/-- A phrase whose first piece has a property. -/
structure Opening (property : Piece → Bool) (pieces : List Piece) : Prop where
  /-- The pieces are a phrase. -/
  phrase : Phrase pieces
  /-- The first piece has the property. -/
  first : ∃ first rest, pieces = first :: rest ∧ property first = true

/-- The first kinds of pieces of a pattern. -/
def opensPattern (piece : Piece) : Bool :=
  match piece.kind with
  | .lowerIdentifier | .upperIdentifier | .number | .string | .char | .leftParen |
      .leftBracket | .leftBrace =>
    true
  | _ => false

/-- The first kinds of pieces of a type. -/
def opensType (piece : Piece) : Bool :=
  match piece.kind with
  | .lowerIdentifier | .upperIdentifier | .leftParen | .leftBrace => true
  | _ => false

/-- The first kinds of pieces of a term that is neither a negation nor the function that reads a
field. -/
def opensPlain (piece : Piece) : Bool := piece.opensPattern || piece.kind == .shader

/-- The first kinds of pieces of a term of an expression. -/
def opensTerm (piece : Piece) : Bool :=
  piece.opensPlain || piece.kind == .operator || piece.kind == .dot

variable {property : Piece → Bool} {pieces rest : List Piece}

/-- An opening has a piece. -/
theorem Opening.solid (opening : Opening property pieces) : pieces ≠ [] := by
  obtain ⟨first, rest, rfl, -⟩ := opening.first
  exact List.cons_ne_nil first rest

/-- A phrase behind an opening does not change how it opens. -/
theorem Opening.append (opening : Opening property pieces) (phrase : Phrase rest) :
    Opening property (pieces ++ rest) := by
  obtain ⟨first, more, same, holds⟩ := opening.first
  refine ⟨opening.phrase.append phrase, first, more ++ rest, ?_, holds⟩
  rw [same, List.cons_append]

/-- A piece with the property opens a phrase. -/
theorem Opening.cons {piece : Piece} (phrase : Phrase rest) (sound : piece.Sound)
    (loose : piece.joined = false) (holds : property piece = true) :
    Opening property (piece :: rest) :=
  ⟨phrase.cons sound loose, piece, rest, rfl, holds⟩

/-- What is joinable opens with its first piece. -/
theorem Joinable.opening (joinable : Joinable pieces)
    (first : ∀ piece ∈ pieces.head?, property piece = true) : Opening property pieces := by
  refine ⟨joinable.phrase, ?_⟩
  obtain ⟨init, last, rfl, -⟩ := joinable.ends
  cases init with
  | nil => exact ⟨last, [], rfl, first last rfl⟩
  | cons piece others => exact ⟨piece, others ++ [last], rfl, first piece rfl⟩

/-- A phrase between brackets is a phrase that opens with the first one and ends with the second
one. -/
theorem enclosed_phrase {opening closing : TokenKind} (phrase : Phrase pieces)
    (opens : opening.mark?.isSome) (closes : closing.mark?.isSome) :
    Phrase (enclosed opening closing pieces) :=
  (phrase.append ((mark_sound closes).phrase rfl)).cons (mark_sound opens) rfl

/-- Phrases with a piece between each two of them open as the first one does. -/
theorem Opening.between {separator : Piece} {first : List Piece} {items : List β}
    {each : β → List Piece} (opening : Opening property first) (sound : separator.Sound)
    (loose : separator.joined = false) (phrases : ∀ b ∈ items, Phrase (each b)) :
    Opening property (between separator (first :: items.map each)) := by
  refine opening.append (.flatMap fun part member => ?_)
  obtain ⟨b, inItems, rfl⟩ := List.mem_map.mp member
  exact (phrases b inItems).cons sound loose

/-- Phrases with commas between them are a phrase. -/
theorem listed_phrase {items : List β} {each : β → List Piece}
    (phrases : ∀ b ∈ items, Phrase (each b)) : Phrase (listed (items.map each)) :=
  .between (mark_sound rfl) rfl (List.forall_mem_map.mpr phrases)

end Piece

/-- The first piece of a qualified name is a name. -/
theorem QualifiedName.head_pieces {property : Piece → Bool} {last : Text → Piece}
    (qualified : QualifiedName) (upper : ∀ name, property (.upper name) = true)
    (holds : ∀ name, property (last name) = true) :
    ∀ piece ∈ (qualified.pieces last).head?, property piece = true := by
  obtain ⟨qualifier, name⟩ := qualified
  intro piece first
  cases qualifier with
  | nil => exact Option.some.inj first ▸ holds name
  | cons part others => exact Option.some.inj first ▸ upper part

/-- A lower-case name can be written. -/
theorem lower_sound {name : Text} (isLexeme : IsLexeme .lowerIdentifier name) :
    (Piece.lower name).Sound :=
  (name_sound isLexeme (.inl rfl)).1

/-- Nothing is written of the commas around values that stand alone. -/
theorem map_alone {α : Type} (items : List α) (pieces : α → List Piece) :
    (items.map Commented.alone).map (fun item => pieces item.value) = items.map pieces := by
  rw [List.map_map]
  rfl

/-- Arguments that stand alone are written one after the other. -/
theorem flatMap_alone {α : Type} (items : List α) (pieces : α → List Piece) :
    (items.map Commented.alone).flatMap (fun item => pieces item.value) = items.flatMap pieces := by
  rw [List.flatMap_map]
  rfl

/-- The pieces of a constructor and its arguments open with an upper-case name. -/
theorem QualifiedName.Lexical.opening {property : Piece → Bool} {tag : QualifiedName}
    {items : List β} {pieces : β → List Piece} (lexical : tag.Lexical .upperIdentifier)
    (upper : ∀ name, property (.upper name) = true) (arguments : ∀ b ∈ items, Phrase (pieces b)) :
    Opening property (tag.pieces .upper ++ items.flatMap pieces) :=
  ((lexical.joinable (.inr rfl)).opening (tag.head_pieces upper upper)).append (.flatMap arguments)

/-- The pieces of a pattern in normal form. -/
theorem Pattern.Normal.opening {pattern : Pattern} (normal : pattern.Normal) :
    Opening opensPattern pattern.pieces := by
  induction normal with
  | anything =>
    rw [pieces_mk]
    exact .cons .nil (lower_sound (.of_fronts ⟨_, _, rfl, rfl, rfl⟩)) rfl rfl
  | unit =>
    rw [pieces_mk]
    exact ⟨enclosed_phrase .nil rfl rfl, _, _, rfl, rfl⟩
  | @literal span l lexical plain =>
    rw [pieces_mk]
    have opens : opensPattern l.piece = true := by
      cases l <;> rfl
    exact .cons .nil (Literal.piece_sound lexical) rfl opens
  | name lexical binds =>
    rw [pieces_mk]
    exact .cons .nil (lower_sound lexical) rfl rfl
  | data lexical normal terms ih =>
    rw [pieces_mk, PatternNode.pieces, flatMap_alone]
    exact lexical.opening (fun _ => rfl) fun p member => (ih p member).phrase
  | parens normal ih =>
    rw [pieces_mk]
    exact ⟨enclosed_phrase ih.phrase rfl rfl, _, _, rfl, rfl⟩
  | tuple normal several ih =>
    rw [pieces_mk, PatternNode.pieces, map_alone]
    exact ⟨enclosed_phrase (listed_phrase fun p member => (ih p member).phrase) rfl rfl,
      _, _, rfl, rfl⟩
  | emptyList =>
    rw [pieces_mk]
    exact ⟨enclosed_phrase .nil rfl rfl, _, _, rfl, rfl⟩
  | list normal some ih =>
    rw [pieces_mk, PatternNode.pieces, map_alone]
    exact ⟨enclosed_phrase (listed_phrase fun p member => (ih p member).phrase) rfl rfl,
      _, _, rfl, rfl⟩
  | @cons span first rest normal operands some ih =>
    rw [pieces_mk, PatternNode.pieces, map_alone]
    have connective : (Piece.operator (Text.ofString "::")).Sound :=
      operator_sound (.of_fronts ⟨_, _, rfl, rfl, rfl⟩)
    exact (ih first (.head _)).between connective rfl fun p member => (ih p (.tail _ member)).phrase
  | record lexical some =>
    rw [pieces_mk, PatternNode.pieces, map_alone _ fun n => [Piece.lower n]]
    have fields := listed_phrase fun n member => (lower_sound (lexical n member)).phrase rfl
    exact ⟨enclosed_phrase fields rfl rfl, _, _, rfl, rfl⟩
  | named normal unnamed lexical ih =>
    rw [pieces_mk]
    exact ih.append (((lower_sound lexical).phrase rfl).cons (keyword_sound "as" (by decide)) rfl)

/-- The pieces of the name that a record extends or updates are a phrase. -/
theorem basePieces_phrase {base : Option Text} (lexical : ∀ n ∈ base, IsLexeme .lowerIdentifier n) :
    Phrase (basePieces (base.map .alone)) := by
  cases base with
  | none => exact .nil
  | some n => exact ((mark_sound rfl).phrase rfl).cons (lower_sound (lexical n rfl)) rfl

/-- The pieces of a type in normal form. -/
theorem TypeExpression.Normal.opening {type : TypeExpression} (normal : type.Normal) :
    Opening opensType type.pieces := by
  induction normal with
  | unit =>
    rw [pieces_mk]
    exact ⟨enclosed_phrase .nil rfl rfl, _, _, rfl, rfl⟩
  | name lexical =>
    rw [pieces_mk]
    exact .cons .nil (lower_sound lexical) rfl rfl
  | construction lexical normal terms ih =>
    rw [pieces_mk, TypeNode.pieces, flatMap_alone]
    exact lexical.opening (fun _ => rfl) fun t member => (ih t member).phrase
  | parens normal ih =>
    rw [pieces_mk]
    exact ⟨enclosed_phrase ih.phrase rfl rfl, _, _, rfl, rfl⟩
  | tuple normal several ih =>
    rw [pieces_mk, TypeNode.pieces, map_alone]
    exact ⟨enclosed_phrase (listed_phrase fun t member => (ih t member).phrase) rfl rfl,
      _, _, rfl, rfl⟩
  | record lexicalBase lexical normal ih =>
    rw [pieces_mk, TypeNode.pieces, List.map_map]
    have colon : (mark .colon).Sound := mark_sound rfl
    have fields := listed_phrase fun field member =>
      ((ih field member).phrase.cons colon rfl).cons (lower_sound (lexical field member)) rfl
    exact ⟨enclosed_phrase ((basePieces_phrase lexicalBase).append fields) rfl rfl, _, _, rfl, rfl⟩
  | @function span first rest normal operands some ih =>
    rw [pieces_mk, TypeNode.pieces, map_alone]
    exact (ih first (.head _)).between (mark_sound rfl) rfl fun t member =>
      (ih t (.tail _ member)).phrase

/-- A piece that opens a plain term does not begin with an operator character. -/
theorem Piece.Sound.head_lexeme {piece : Piece} (sound : piece.Sound)
    (plain : piece.opensPlain = true) : ∀ u ∈ piece.lexeme.head?, u.isOperator = false := by
  obtain ⟨joined, kind, lexeme⟩ := piece
  obtain ⟨source, found, scan, token, member, sameKind, sameLexeme⟩ := sound.isLexeme
  have shape := ((Scan.scan_eq_ok_iff source found).mp scan).shape token member
  rw [sameKind, sameLexeme] at shape
  intro u first
  cases kind with
  | lowerIdentifier =>
    obtain ⟨v, tail, rfl, isStart, -⟩ := shape
    exact Option.some.inj first ▸ CodeUnit.isOperator_of isStart (by decide)
  | upperIdentifier =>
    obtain ⟨v, tail, rfl, isUpper⟩ := shape
    exact Option.some.inj first ▸ CodeUnit.isOperator_of isUpper (by decide)
  | number =>
    obtain ⟨-, v, tail, rfl, digit⟩ := shape
    exact Option.some.inj first ▸ CodeUnit.isOperator_of digit (by decide)
  | string =>
    rcases shape with ⟨body, rfl⟩ | ⟨-, body, rfl⟩
    · exact Option.some.inj first ▸ by decide
    · exact Option.some.inj first ▸ by decide
  | char =>
    obtain ⟨body, rfl⟩ := shape
    exact Option.some.inj first ▸ by decide
  | shader =>
    obtain ⟨body, rfl⟩ := shape
    exact Option.some.inj first ▸ by decide
  | leftParen | leftBrace | leftBracket =>
    obtain ⟨word, isMark, rfl⟩ := shape
    obtain rfl := Option.some.inj isMark
    exact Option.some.inj first ▸ by decide
  | _ => cases plain

/-- A phrase between brackets ends with the second one. -/
theorem Piece.enclosed_joinable {opening closing : TokenKind} {pieces : List Piece}
    (phrase : Phrase pieces) (opens : opening.mark?.isSome) (closes : closing.mark?.isSome)
    (bracket : isBracket closing = true) : Joinable (enclosed opening closing pieces) :=
  ⟨enclosed_phrase phrase opens closes, mark opening :: pieces, mark closing, rfl, .inl bracket⟩

/-- Commas in parentheses may stand together. -/
theorem Piece.tight_joinable (commas : Nat) :
    Joinable (tight (enclosed .leftParen .rightParen (List.replicate commas (mark .comma)))) := by
  have each :
      ∀ piece ∈ tight (enclosed .leftParen .rightParen (List.replicate commas (mark .comma))),
        piece.Sound ∧ isBracket piece.kind = true := by
    intro piece member
    simp only [tight, enclosed, List.map_append, List.map_replicate, List.mem_cons, List.mem_append,
      List.mem_replicate] at member
    rcases member with rfl | ⟨-, rfl⟩ | isLast
    · exact ⟨mark_sound rfl, rfl⟩
    · exact ⟨(mark_sound rfl).join, rfl⟩
    · obtain rfl := List.mem_singleton.mp isLast
      exact ⟨(mark_sound rfl).join, rfl⟩
  refine ⟨⟨⟨fun piece member => (each piece member).1, List.Pairwise.isChain ?_⟩, ?_⟩,
    mark .leftParen :: (List.replicate commas (mark .comma)).map join,
    (mark .rightParen).join, ?_, .inl rfl⟩
  · exact List.pairwise_of_forall_mem_list fun first member _ _ _ => .inl (each first member).2
  · exact fun piece first => Option.some.inj first ▸ rfl
  · simp [tight, enclosed]

/-- A name may stand directly behind a dot. -/
theorem Piece.accessor_phrase {name : Text} (isLexeme : IsLexeme .lowerIdentifier name) :
    Phrase [mark .dot, (Piece.lower name).join] := by
  have begins := (@name_sound true _ _ isLexeme (.inl rfl)).2
  refine ⟨⟨fun piece member => ?_, ?_⟩, fun piece first => Option.some.inj first ▸ rfl⟩
  · simp only [List.mem_cons, List.not_mem_nil, or_false] at member
    rcases member with rfl | rfl
    · exact mark_sound rfl
    · exact (lower_sound isLexeme).join
  · exact .cons_cons (fun _ => .inr (.inr ⟨.inl rfl, begins⟩)) (.singleton _)

/-- The piece that an expression of a form may begin with. -/
def ExpressionNode.beginsWith (node : ExpressionNode ε) (piece : Piece) : Bool :=
  match node with
  | conditional .. => piece == .keyword "if"
  | caseOf .. => piece == .keyword "case"
  | letIn .. => piece == .keyword "let"
  | lambda .. => piece == Piece.lambda
  | negation _ => piece == .operator "-"
  | accessor _ => piece == mark .dot
  | application .. | chain .. => piece.opensTerm
  | _ => piece.opensPlain

/-- What a negatable expression begins with. -/
theorem ExpressionNode.beginsWith_of_isNegatable {node : ExpressionNode ε}
    (negatable : node.isNegatable = true) : node.beginsWith = opensPlain := by
  cases node <;> first | rfl | cases negatable

/-- A target of an access is negatable. -/
theorem ExpressionNode.isNegatable_of_isTarget {node : ExpressionNode ε}
    (isTarget : node.isTarget = true) : node.isNegatable = true := by
  cases node <;> first | rfl | cases isTarget

/-- What is not open-ended begins as a term does. -/
theorem ExpressionNode.opensTerm_of_beginsWith {node : ExpressionNode ε} {piece : Piece}
    (closed : node.isOpenEnded = false) (begins : node.beginsWith piece = true) :
    piece.opensTerm = true := by
  cases node with
  | conditional | caseOf | letIn | lambda => cases closed
  | negation | accessor =>
    obtain rfl := beq_iff_eq.mp begins
    rfl
  | application | chain => exact begins
  | _ => rw [opensTerm, show piece.opensPlain = true from begins]; rfl

/-- The pieces of an expression in normal form can be written, and behind a target a dot may stand
directly. -/
structure Expression.Writable (expression : Expression) : Prop where
  /-- The pieces are a phrase that begins in one way. -/
  opening : Opening expression.node.beginsWith expression.pieces
  /-- A dot may stand behind a target. -/
  joinable : expression.node.isTarget = true → Joinable expression.pieces

/-- What is defined and its arguments are phrases. -/
theorem Pattern.Defines.phrases {pattern : Pattern} {arguments : List Pattern}
    (defines : pattern.Defines arguments) :
    Phrase pattern.pieces ∧ ∀ p ∈ arguments, Phrase p.pieces := by
  cases defines with
  | name lexical binds normal terms =>
    exact ⟨(Normal.name lexical binds).opening.phrase,
      fun p member => (normal p member).opening.phrase⟩
  | operator lexical normal terms =>
    refine ⟨?_, fun p member => (normal p member).opening.phrase⟩
    rw [pieces_mk]
    exact (parenthesized_joinable lexical).phrase
  | pattern normal term => exact ⟨normal.opening.phrase, by simp⟩

/-- The pieces of an annotated name are a phrase. -/
theorem AnnotatedName.Lexical.phrase {name : AnnotatedName} (lexical : name.Lexical) :
    Phrase name.pieces := by
  cases name with
  | value n => exact (lower_sound lexical).phrase rfl
  | operator symbol => exact (parenthesized_joinable lexical).phrase

/-- The pieces of a condition and its body open with `if`. -/
theorem IfClause.plain_opening {clause : Expression × Expression}
    (condition : Phrase clause.1.pieces) (body : Phrase clause.2.pieces) :
    Opening (· == Piece.keyword "if") ((IfClause.plain clause).pieces Expression.pieces) :=
  .cons (condition.append (body.cons (keyword_sound "then" (by decide)) rfl))
    (keyword_sound "if" (by decide)) rfl rfl

/-- An expression from which no field is read can be written as it opens. -/
theorem Expression.Writable.of_opening {span : Span} {node : ExpressionNode Expression}
    (opening : Opening node.beginsWith (node.pieces Expression.pieces))
    (noTarget : node.isTarget = false) : Expression.Writable ⟨span, node⟩ := by
  refine ⟨?_, fun isTarget => ?_⟩
  · rwa [pieces_mk]
  · rw [show node.isTarget = true from isTarget] at noTarget
    cases noTarget

/-- A plain term behind which a dot may stand can be written. -/
theorem Expression.Writable.of_joinable {span : Span} {node : ExpressionNode Expression}
    (joinable : Joinable (node.pieces Expression.pieces)) (negatable : node.isNegatable = true)
    (first : ∀ piece ∈ (node.pieces Expression.pieces).head?, piece.opensPlain = true) :
    Expression.Writable ⟨span, node⟩ := by
  refine ⟨?_, fun _ => ?_⟩
  · rw [pieces_mk]
    refine joinable.opening ?_
    rw [ExpressionNode.beginsWith_of_isNegatable (show _ = true from negatable)]
    exact first
  · rwa [pieces_mk]

/-- A term is an operand. -/
theorem ExpressionNode.isOperand_of_isTerm {node : ExpressionNode ε} (term : node.isTerm = true) :
    node.isOperand = true := by
  cases node <;> first | rfl | cases term

/-- An operand does not extend as far right as possible. -/
theorem ExpressionNode.isOpenEnded_of_isOperand {node : ExpressionNode ε}
    (operand : node.isOperand = true) : node.isOpenEnded = false := by
  cases node <;> first | rfl | cases operand

/-- An operand opens as a term does. -/
theorem Expression.Writable.operand {expression : Expression} (writable : expression.Writable)
    (closed : expression.node.isOpenEnded = false) : Opening opensTerm expression.pieces := by
  obtain ⟨phrase, first, rest, same, begins⟩ := writable.opening
  exact ⟨phrase, first, rest, same, ExpressionNode.opensTerm_of_beginsWith closed begins⟩

/-- The operand of a minus sign may stand directly behind it. -/
theorem Expression.Writable.negation {operand : Expression} (writable : operand.Writable)
    (negatable : operand.node.isNegatable = true) :
    Phrase (Piece.operator (Text.ofString "-") :: joinFirst operand.pieces) := by
  obtain ⟨phrase, first, rest, same, begins⟩ := writable.opening
  rw [ExpressionNode.beginsWith_of_isNegatable negatable] at begins
  have minus : (Piece.operator (Text.ofString "-")).Sound :=
    operator_sound (.of_fronts ⟨_, _, rfl, rfl, rfl⟩)
  have joined := phrase.writable.joinFirst
  have plain := (phrase.writable.sound first (by simp [same])).head_lexeme begins
  rw [same] at joined ⊢
  refine ⟨⟨fun piece member => ?_, ?_⟩, fun piece isFirst => Option.some.inj isFirst ▸ rfl⟩
  · rcases List.mem_cons.mp member with rfl | inOperand
    · exact minus
    · exact joined.sound piece inOperand
  · exact .cons_cons (fun _ => .inr (.inr ⟨.inr rfl, plain⟩)) joined.adjoins

/-- The pieces of an expression in normal form can be written. -/
theorem Expression.Normal.writable {expression : Expression} (normal : expression.Normal) :
    expression.Writable := by
  induction normal with
  | @literal span l lexical =>
    have opens : opensPlain l.piece = true := by
      cases l <;> rfl
    exact .of_opening (.cons .nil (Literal.piece_sound lexical) rfl opens) rfl
  | @reference span r lexical noBoolean =>
    cases r with
    | value name =>
      exact .of_joinable (lexical.joinable (.inl rfl)) rfl
        (name.head_pieces (fun _ => rfl) fun _ => rfl)
    | tag name =>
      exact .of_joinable (lexical.joinable (.inr rfl)) rfl
        (name.head_pieces (fun _ => rfl) fun _ => rfl)
    | operator symbol =>
      exact .of_joinable (parenthesized_joinable lexical) rfl fun piece first =>
        Option.some.inj first ▸ rfl
  | negation normal negatable ih =>
    exact .of_opening ⟨ih.negation negatable, _, _, rfl, rfl⟩ rfl
  | range normalLow normalHigh ihLow ihHigh =>
    have dots : (mark .range).Sound := mark_sound rfl
    have inside := ihLow.opening.phrase.append (ihHigh.opening.phrase.cons dots rfl)
    exact .of_opening ⟨enclosed_phrase inside rfl rfl, _, _, rfl, rfl⟩ rfl
  | list normal ih =>
    refine .of_opening ?_ rfl
    rw [ExpressionNode.pieces, map_alone]
    exact ⟨enclosed_phrase (listed_phrase fun e member => (ih e member).opening.phrase) rfl rfl,
      _, _, rfl, rfl⟩
  | @application span head arguments normal terms some ih =>
    refine .of_opening ?_ rfl
    rw [ExpressionNode.pieces, flatMap_alone]
    have operand := ExpressionNode.isOperand_of_isTerm (terms head (.head _))
    have opening := (ih head (.head _)).operand (ExpressionNode.isOpenEnded_of_isOperand operand)
    exact opening.append (.flatMap fun e member => (ih e (.tail _ member)).opening.phrase)
  | @chain span left inner last normalLeft operandLeft lexical normal operands notChain ihLeft ih =>
    refine .of_opening ?_ rfl
    rw [ExpressionNode.pieces, List.flatMap_map]
    refine (ihLeft.operand (ExpressionNode.isOpenEnded_of_isOperand operandLeft)).append
      (.flatMap fun link member => ?_)
    exact (ih link member).opening.phrase.cons (operator_sound (lexical link member)) rfl
  | @conditional span first rest final conditions bodies normalFinal notConditional ihConditions
      ihBodies ihFinal =>
    have clause : ∀ c ∈ first :: rest,
          Opening (· == Piece.keyword "if") ((IfClause.plain c).pieces Expression.pieces) :=
      fun c member => IfClause.plain_opening (ihConditions c member).opening.phrase
        (ihBodies c member).opening.phrase
    have word : (Piece.keyword "else").Sound := keyword_sound "else" (by decide)
    refine .of_opening ?_ rfl
    rw [ExpressionNode.pieces, List.flatMap_map]
    refine (clause first (.head _)).append (Phrase.append (.flatMap fun c member => ?_) ?_)
    · exact (clause c (.tail _ member)).phrase.cons word rfl
    · exact ihFinal.opening.phrase.cons word rfl
  | caseOf normalSubject normalPattern normalBody ihSubject ihBody =>
    refine .of_opening ?_ rfl
    have arrow : (mark .arrow).Sound := mark_sound rfl
    have branch := normalPattern.opening.phrase.append (ihBody.opening.phrase.cons arrow rfl)
    have distinction := ihSubject.opening.phrase.append
      (branch.cons (keyword_sound "of" (by decide)) rfl)
    rw [ExpressionNode.pieces, List.flatMap_cons, List.flatMap_nil, List.append_nil]
    exact .cons distinction (keyword_sound "case" (by decide)) rfl rfl
  | letDefinition defines normalValue normalBody ihValue ihBody =>
    refine .of_opening ?_ rfl
    have equals : (mark .equals).Sound := mark_sound rfl
    obtain ⟨pattern, arguments⟩ := defines.phrases
    have definition := pattern.append
      ((Phrase.flatMap arguments).append (ihValue.opening.phrase.cons equals rfl))
    have body := ihBody.opening.phrase.cons (keyword_sound "in" (by decide)) rfl
    rw [ExpressionNode.pieces, List.flatMap_cons, List.flatMap_nil, List.append_nil,
      LetEntry.pieces, Declaration.pieces, Definition.pieces, flatMap_alone]
    exact .cons (definition.append body) (keyword_sound "let" (by decide)) rfl rfl
  | letSignature lexical normalType normalBody ihBody =>
    refine .of_opening ?_ rfl
    have colon : (mark .colon).Sound := mark_sound rfl
    have signature := lexical.phrase.append (normalType.opening.phrase.cons colon rfl)
    have body := ihBody.opening.phrase.cons (keyword_sound "in" (by decide)) rfl
    rw [ExpressionNode.pieces, List.flatMap_cons, List.flatMap_nil, List.append_nil]
    exact .cons (signature.append body) (keyword_sound "let" (by decide)) rfl rfl
  | lambda normalArguments terms some normalBody ihBody =>
    refine .of_opening ?_ rfl
    have arguments := Phrase.flatMap fun p member => (normalArguments p member).opening.phrase
    rw [ExpressionNode.pieces, flatMap_alone]
    exact .cons (arguments.append (ihBody.opening.phrase.cons (mark_sound rfl) rfl))
      lambda_sound rfl rfl
  | tuple normal several ih =>
    refine .of_joinable ?_ rfl fun piece first => Option.some.inj first ▸ rfl
    rw [ExpressionNode.pieces, map_alone]
    exact enclosed_joinable (listed_phrase fun e member => (ih e member).opening.phrase) rfl rfl rfl
  | parens normal ih =>
    exact .of_joinable (enclosed_joinable ih.opening.phrase rfl rfl rfl) rfl fun piece first =>
      Option.some.inj first ▸ rfl
  | unit =>
    exact .of_joinable (enclosed_joinable .nil rfl rfl rfl) rfl fun piece first =>
      Option.some.inj first ▸ rfl
  | record lexicalBase lexical normal ih =>
    refine .of_joinable ?_ rfl fun piece first => Option.some.inj first ▸ rfl
    rw [ExpressionNode.pieces, List.map_map]
    have equals : (mark .equals).Sound := mark_sound rfl
    have fields := listed_phrase fun field member =>
      ((ih field member).opening.phrase.cons equals rfl).cons
        (lower_sound (lexical field member)) rfl
    exact enclosed_joinable ((basePieces_phrase lexicalBase).append fields) rfl rfl rfl
  | @access span target field normal isTarget lexical ih =>
    have joinable := (ih.joinable isTarget).dotted (.inl rfl) lexical
    refine .of_joinable joinable rfl ?_
    obtain ⟨-, first, rest, same, begins⟩ := ih.opening
    rw [ExpressionNode.beginsWith_of_isNegatable
        (ExpressionNode.isNegatable_of_isTarget isTarget)] at begins
    rw [ExpressionNode.pieces, same]
    exact fun piece isFirst => Option.some.inj isFirst ▸ begins
  | accessor lexical => exact .of_opening ⟨accessor_phrase lexical, _, _, rfl, rfl⟩ rfl
  | @tupleFunction span arity several =>
    exact .of_joinable (tight_joinable (arity - 1)) rfl fun piece first =>
      Option.some.inj first ▸ rfl
  | @shader span source lexical oneLine noReturn =>
    have inside : Text.newline ∉ Text.ofString Scan.shaderOpening ++
          (source ++ Text.ofString Scan.shaderClosing) := by
      simp [oneLine]
      decide
    exact .of_opening (.cons .nil ⟨lexical, ⟨rfl, by rintro ⟨⟩⟩, inside⟩ rfl rfl) rfl

end Marginalia
