import Marginalia.Proofs.Tree.View
import Marginalia.Proofs.Writing.Word

/-!
# Writing trees

The pieces of a tree, in the order of the grammar. All of them stand apart, except where the grammar
demands that they are joined: the operand of a minus sign, a field behind its dot, qualified names,
operators and commas in parentheses. Comments, spans and line breaks are passed over.
-/

namespace Marginalia

variable {β π τ ε : Type}

open Piece

/-! ## Patterns -/

/-- The pieces of a node of a pattern. -/
def PatternNode.pieces (inner : π → List Piece) : PatternNode π → List Piece
  | anything => [.lower "_"]
  | unit _ => enclosed .leftParen .rightParen []
  | literal l => [l.piece]
  | name n => [.lower n]
  | operator symbol => parenthesized symbol
  | data tag arguments => tag.pieces .upper ++ arguments.flatMap (inner ·.value)
  | parens pattern => enclosed .leftParen .rightParen (inner pattern.value)
  | tuple elements => enclosed .leftParen .rightParen (listed (elements.map (inner ·.value)))
  | emptyList _ => enclosed .leftBracket .rightBracket []
  | list elements => enclosed .leftBracket .rightBracket (listed (elements.map (inner ·.value)))
  | cons first rest => between (.operator "::") (inner first.value :: rest.map (inner ·.value))
  | record fields => enclosed .leftBrace .rightBrace (listed (fields.map ([.lower ·.value])))
  | named pattern n => inner pattern.value ++ [.keyword "as", .lower n.value]

/-- Changed children are written as those that they were made from. -/
theorem PatternNode.pieces_map (inner : β → List Piece) (f : π → β) (node : PatternNode π) :
    (node.map f).pieces inner = node.pieces (inner ∘ f) := by
  rw [map_eq]
  cases node <;> simp [pieces, Commented.map, List.flatMap_map, Function.comp_def]

/-- The pieces of a pattern. -/
def Pattern.pieces (pattern : Pattern) : List Piece := pattern.fold fun _ node => node.pieces id

/-- The pieces of a pattern are those of its node. -/
@[simp]
theorem Pattern.pieces_mk (span : Span) (node : PatternNode Pattern) :
    pieces ⟨span, node⟩ = node.pieces Pattern.pieces := by
  rw [pieces, fold_eq, PatternNode.pieces_map]
  rfl

/-! ## Types -/

/-- The pieces of a field of a record type. -/
def RecordTypeField.pieces (inner : τ → List Piece) (field : RecordTypeField τ) : List Piece :=
  .lower field.name.value :: mark .colon :: inner field.type.value

/-- The pieces of the name that a record extends or updates, with the bar after it. -/
def basePieces (base : Option (Commented Text)) : List Piece :=
  base.elim [] fun name => [.lower name.value, mark .pipe]

/-- The pieces of a node of a type. -/
def TypeNode.pieces (inner : τ → List Piece) : TypeNode τ → List Piece
  | unit _ => enclosed .leftParen .rightParen []
  | name n => [.lower n]
  | construction tag arguments => tag.pieces .upper ++ arguments.flatMap (inner ·.value)
  | parens type => enclosed .leftParen .rightParen (inner type.value)
  | tuple elements => enclosed .leftParen .rightParen (listed (elements.map (inner ·.value)))
  | record base fields _ _ =>
    enclosed .leftBrace .rightBrace (basePieces base ++ listed (fields.map (·.value.pieces inner)))
  | function first rest _ => between (mark .arrow) (inner first.value :: rest.map (inner ·.value))

/-- Changed children are written as those that they were made from. -/
theorem TypeNode.pieces_map (inner : β → List Piece) (f : τ → β) (node : TypeNode τ) :
    (node.map f).pieces inner = node.pieces (inner ∘ f) := by
  rw [map_eq]
  cases node <;> simp [pieces, Commented.map, RecordTypeField.map, RecordTypeField.pieces,
    List.flatMap_map, Function.comp_def]

/-- The pieces of a type. -/
def TypeExpression.pieces (type : TypeExpression) : List Piece :=
  type.fold fun _ node => node.pieces id

/-- The pieces of a type are those of its node. -/
@[simp]
theorem TypeExpression.pieces_mk (span : Span) (node : TypeNode TypeExpression) :
    pieces ⟨span, node⟩ = node.pieces TypeExpression.pieces := by
  rw [pieces, fold_eq, TypeNode.pieces_map]
  rfl

/-! ## Expressions -/

/-- The pieces of a name that stands between two operands. -/
def Reference.infixPieces : Reference → List Piece
  | operator symbol => [.operator symbol]
  | reference => reference.pieces

/-- The pieces of a clause of a chain. -/
def Clause.pieces (inner : ε → List Piece) (clause : Clause Reference ε) : List Piece :=
  clause.operator.value.infixPieces ++ inner clause.expression

/-- The pieces of a condition and its body. -/
def IfClause.pieces (inner : ε → List Piece) (clause : IfClause ε) : List Piece :=
  .keyword "if" :: (inner clause.condition.value ++ .keyword "then" :: inner clause.body.value)

/-- The pieces of a branch. -/
def Branch.pieces (inner : ε → List Piece) (branch : Branch ε) : List Piece :=
  branch.pattern.pieces ++ mark .arrow :: inner branch.body

/-- The pieces of a field of a record. -/
def RecordPair.pieces (inner : ε → List Piece) (pair : RecordPair ε) : List Piece :=
  .lower pair.key.value :: mark .equals :: inner pair.value.value

/-- The pieces of a definition. -/
def Definition.pieces (inner : ε → List Piece) (definition : Definition ε) : List Piece :=
  definition.pattern.pieces ++
    (definition.arguments.flatMap (·.value.pieces) ++ mark .equals :: inner definition.body)

/-- The pieces of a signature. -/
def Signature.pieces (signature : Signature) : List Piece :=
  signature.name.value.pieces ++ mark .colon :: signature.type.value.pieces

/-- The pieces of a declaration. -/
def Declaration.pieces (inner : ε → List Piece) : Declaration ε → List Piece
  | definition d => d.pieces inner
  | signature s => s.pieces

/-- The pieces of an entry of a `let`; a comment has none. -/
def LetEntry.pieces (inner : ε → List Piece) : LetEntry ε → List Piece
  | declaration d => d.value.pieces inner
  | comment _ => []

/-- The pieces of a node of an expression. -/
def ExpressionNode.pieces (inner : ε → List Piece) : ExpressionNode ε → List Piece
  | literal l => [l.piece]
  | reference r => r.pieces
  | negation operand => .operator "-" :: joinFirst (inner operand)
  | range low high _ =>
    enclosed .leftBracket .rightBracket (inner low.value ++ mark .range :: inner high.value)
  | list terms _ _ => enclosed .leftBracket .rightBracket (listed (terms.map (inner ·.value)))
  | application head arguments _ => inner head ++ arguments.flatMap (inner ·.value)
  | chain left clauses _ => inner left ++ clauses.flatMap (·.pieces inner)
  | conditional first rest final =>
    first.pieces inner ++
      (rest.flatMap (fun clause => .keyword "else" :: clause.value.pieces inner) ++
        .keyword "else" :: inner final.value)
  | caseOf subject _ branches =>
    .keyword "case" :: (inner subject.value ++ .keyword "of" ::
        branches.flatMap (·.value.pieces inner))
  | letIn entries _ body =>
    .keyword "let" :: (entries.flatMap (·.value.pieces inner) ++ .keyword "in" :: inner body)
  | lambda arguments _ body _ =>
    Piece.lambda :: (arguments.flatMap (·.value.pieces) ++ mark .arrow :: inner body)
  | tuple elements _ => enclosed .leftParen .rightParen (listed (elements.map (inner ·.value)))
  | parens expression => enclosed .leftParen .rightParen (inner expression.value)
  | unit _ => enclosed .leftParen .rightParen []
  | record base fields _ _ =>
    enclosed .leftBrace .rightBrace (basePieces base ++ listed (fields.map (·.value.pieces inner)))
  | access target field => inner target ++ dotted (.lower field)
  | accessor field => [mark .dot, (Piece.lower field).join]
  | tupleFunction arity =>
    tight (enclosed .leftParen .rightParen (List.replicate (arity - 1) (mark .comma)))
  | shader source =>
    [⟨false, .shader, Text.ofString Scan.shaderOpening ++
        (source ++ Text.ofString Scan.shaderClosing)⟩]

/-- A changed declaration is written as the one that it was made from. -/
theorem Declaration.pieces_map (inner : β → List Piece) (f : ε → β) (declaration : Declaration ε) :
    (declaration.map f).pieces inner = declaration.pieces (inner ∘ f) := by
  rw [map_eq]
  cases declaration <;> rfl

/-- A changed entry is written as the one that it was made from. -/
theorem LetEntry.pieces_map (inner : β → List Piece) (f : ε → β) (entry : LetEntry ε) :
    (entry.map f).pieces inner = entry.pieces (inner ∘ f) := by
  cases entry with
  | declaration d => exact d.value.pieces_map inner f
  | comment c => rfl

/-- Changed children are written as those that they were made from. -/
theorem ExpressionNode.pieces_map (inner : β → List Piece) (f : ε → β) (node : ExpressionNode ε) :
    (node.map f).pieces inner = node.pieces (inner ∘ f) := by
  rw [map_eq]
  cases node <;> simp [pieces, Commented.map, Clause.map, Clause.pieces, IfClause.map,
    IfClause.pieces, Branch.map, Branch.pieces, RecordPair.map, RecordPair.pieces, Located.map,
    LetEntry.pieces_map, List.flatMap_map, Function.comp_def]

/-- The pieces of an expression. -/
def Expression.pieces (expression : Expression) : List Piece :=
  expression.fold fun _ node => node.pieces id

/-- The pieces of an expression are those of its node. -/
@[simp]
theorem Expression.pieces_mk (span : Span) (node : ExpressionNode Expression) :
    pieces ⟨span, node⟩ = node.pieces Expression.pieces := by
  rw [pieces, fold_eq, ExpressionNode.pieces_map]
  rfl

end Marginalia
