import Marginalia.Proofs.Spelling.Word
import Marginalia.Proofs.Tree.Children

/-!
# The words of a tree

What a tree spells: the reserved words, brackets, separators, names, operators and literals of each
node, in the order of the grammar. Comments, spans and line breaks are passed over.
-/

namespace Marginalia

variable {β π τ ε : Type}

namespace Word

/-- Parts with a word between each two of them. -/
def between (separator : Word) (parts : List (List Word)) : List Word :=
  [separator].intercalate parts

/-- Words between an opening and a closing mark. -/
def enclosed (opening closing : TokenKind) (words : List Word) : List Word :=
  mark opening :: (words ++ [mark closing])

/-- Words between parentheses. -/
def inParens (words : List Word) : List Word := enclosed .leftParen .rightParen words

/-- Words between square brackets. -/
def inBrackets (words : List Word) : List Word := enclosed .leftBracket .rightBracket words

/-- Words between braces. -/
def inBraces (words : List Word) : List Word := enclosed .leftBrace .rightBrace words

/-- Parts with commas between them. -/
def listed (parts : List (List Word)) : List Word := between (mark .comma) parts

end Word

open Word

/-! ## Names and literals -/

/-- The words of a qualified name whose last part is a name of the given sort. -/
def QualifiedName.words (last : Text → Word) (qualified : QualifiedName) : List Word :=
  qualified.qualifier.flatMap (fun part => [upper part, mark .dot]) ++ [last qualified.name]

/-- The words of a name that a term is. -/
def Reference.words : Reference → List Word
  | value name => name.words lower
  | tag name => name.words upper
  | operator symbol => inParens [.operator symbol]

/-- The words of a name that stands between two operands. -/
def Reference.infixWords : Reference → List Word
  | operator symbol => [.operator symbol]
  | reference => reference.words

/-- The words of the name that a signature is about. -/
def AnnotatedName.words : AnnotatedName → List Word
  | value name => [lower name]
  | operator symbol => inParens [.operator symbol]

/-- The words of a literal. A number leaves its spelling open, a text is put back between its
quotes. -/
def Literal.words : Literal → List Word
  | character text => [exact .char (Text.ofString "'" ++ (text ++ Text.ofString "'"))]
  | string text true =>
    [exact .string (Text.ofString Scan.tripleQuote ++ (text ++ Text.ofString Scan.tripleQuote))]
  | string text false => [exact .string (Text.ofString "\"" ++ (text ++ Text.ofString "\""))]
  | boolean true => [upper "True"]
  | boolean false => [upper "False"]
  | literal => [number literal]

/-! ## Patterns -/

/-- The words of a node of a pattern. -/
def PatternNode.words (inner : π → List Word) : PatternNode π → List Word
  | anything => [lower "_"]
  | unit _ => inParens []
  | literal l => l.words
  | name n => [lower n]
  | operator symbol => inParens [.operator symbol]
  | data tag arguments => tag.words upper ++ arguments.flatMap (inner ·.value)
  | parens pattern => inParens (inner pattern.value)
  | tuple elements => inParens (listed (elements.map (inner ·.value)))
  | emptyList _ => inBrackets []
  | list elements => inBrackets (listed (elements.map (inner ·.value)))
  | cons first rest => between (.operator "::") (inner first.value :: rest.map (inner ·.value))
  | record fields => inBraces (listed (fields.map ([lower ·.value])))
  | named pattern n => inner pattern.value ++ [keyword "as", lower n.value]

/-- Changed children spell what the children spell that they were made from. -/
theorem PatternNode.words_map (inner : β → List Word) (f : π → β) (node : PatternNode π) :
    (node.map f).words inner = node.words (inner ∘ f) := by
  rw [map_eq]
  cases node <;> simp [words, Commented.map, List.flatMap_map, Function.comp_def]

/-- The words of a pattern. -/
def Pattern.words (pattern : Pattern) : List Word := pattern.fold fun _ node => node.words id

/-- The words of a pattern are those of its node. -/
@[simp]
theorem Pattern.words_mk (span : Span) (node : PatternNode Pattern) :
    words ⟨span, node⟩ = node.words Pattern.words := by
  rw [words, fold_eq, PatternNode.words_map]
  rfl

/-! ## Types -/

/-- The words of a field of a record type. -/
def RecordTypeField.words (inner : τ → List Word) (field : RecordTypeField τ) : List Word :=
  [lower field.name.value, mark .colon] ++ inner field.type.value

/-- The words of the name that a record extends or updates, with the bar after it. -/
def baseWords (base : Option (Commented Text)) : List Word :=
  base.elim [] fun name => [lower name.value, mark .pipe]

/-- The words of a node of a type. -/
def TypeNode.words (inner : τ → List Word) : TypeNode τ → List Word
  | unit _ => inParens []
  | name n => [lower n]
  | construction tag arguments => tag.words upper ++ arguments.flatMap (inner ·.value)
  | parens type => inParens (inner type.value)
  | tuple elements => inParens (listed (elements.map (inner ·.value)))
  | record base fields _ _ => inBraces (baseWords base ++ listed (fields.map (·.value.words inner)))
  | function first rest _ => between (mark .arrow) (inner first.value :: rest.map (inner ·.value))

/-- Changed children spell what the children spell that they were made from. -/
theorem TypeNode.words_map (inner : β → List Word) (f : τ → β) (node : TypeNode τ) :
    (node.map f).words inner = node.words (inner ∘ f) := by
  rw [map_eq]
  cases node <;> simp [words, Commented.map, RecordTypeField.map, RecordTypeField.words,
    List.flatMap_map, Function.comp_def]

/-- The words of a type. -/
def TypeExpression.words (type : TypeExpression) : List Word :=
  type.fold fun _ node => node.words id

/-- The words of a type are those of its node. -/
@[simp]
theorem TypeExpression.words_mk (span : Span) (node : TypeNode TypeExpression) :
    words ⟨span, node⟩ = node.words TypeExpression.words := by
  rw [words, fold_eq, TypeNode.words_map]
  rfl

/-! ## Expressions -/

/-- The words of a clause of a chain. -/
def Clause.words (inner : ε → List Word) (clause : Clause Reference ε) : List Word :=
  clause.operator.value.infixWords ++ inner clause.expression

/-- The words of a condition and its body. -/
def IfClause.words (inner : ε → List Word) (clause : IfClause ε) : List Word :=
  keyword "if" :: (inner clause.condition.value ++ keyword "then" :: inner clause.body.value)

/-- The words of a branch. -/
def Branch.words (inner : ε → List Word) (branch : Branch ε) : List Word :=
  branch.pattern.words ++ mark .arrow :: inner branch.body

/-- The words of a field of a record. -/
def RecordPair.words (inner : ε → List Word) (pair : RecordPair ε) : List Word :=
  lower pair.key.value :: assignment :: inner pair.value.value

/-- The words of a definition. -/
def Definition.words (inner : ε → List Word) (definition : Definition ε) : List Word :=
  definition.pattern.words ++
    (definition.arguments.flatMap (·.value.words) ++ mark .equals :: inner definition.body)

/-- The words of a signature. -/
def Signature.words (signature : Signature) : List Word :=
  signature.name.value.words ++ mark .colon :: signature.type.value.words

/-- The words of a declaration. -/
def Declaration.words (inner : ε → List Word) : Declaration ε → List Word
  | definition d => d.words inner
  | signature s => s.words

/-- The words of an entry of a `let`; a comment has none. -/
def LetEntry.words (inner : ε → List Word) : LetEntry ε → List Word
  | declaration d => d.value.words inner
  | comment _ => []

/-- The words of a node of an expression. -/
def ExpressionNode.words (inner : ε → List Word) : ExpressionNode ε → List Word
  | literal l => l.words
  | reference r => r.words
  | negation operand => .operator "-" :: inner operand
  | range low high _ => inBrackets (inner low.value ++ mark .range :: inner high.value)
  | list terms _ _ => inBrackets (listed (terms.map (inner ·.value)))
  | application head arguments _ => inner head ++ arguments.flatMap (inner ·.value)
  | chain left clauses _ => inner left ++ clauses.flatMap (·.words inner)
  | conditional first rest final =>
    first.words inner ++
      (rest.flatMap (fun clause => keyword "else" :: clause.value.words inner) ++
        keyword "else" :: inner final.value)
  | caseOf subject _ branches =>
    keyword "case" :: (inner subject.value ++ keyword "of" ::
        branches.flatMap (·.value.words inner))
  | letIn entries _ body =>
    keyword "let" :: (entries.flatMap (·.value.words inner) ++ keyword "in" :: inner body)
  | lambda arguments _ body _ =>
    Word.lambda :: (arguments.flatMap (·.value.words) ++ mark .arrow :: inner body)
  | tuple elements _ => inParens (listed (elements.map (inner ·.value)))
  | parens expression => inParens (inner expression.value)
  | unit _ => inParens []
  | record base fields _ _ => inBraces (baseWords base ++ listed (fields.map (·.value.words inner)))
  | access target field => inner target ++ [mark .dot, lower field]
  | accessor field => [mark .dot, lower field]
  | tupleFunction arity => inParens (List.replicate (arity - 1) (mark .comma))
  | shader source => [Word.shader source]

/-- A changed declaration spells what the one spells that it was made from. -/
theorem Declaration.words_map (inner : β → List Word) (f : ε → β) (declaration : Declaration ε) :
    (declaration.map f).words inner = declaration.words (inner ∘ f) := by
  rw [map_eq]
  cases declaration <;> rfl

/-- A changed entry spells what the one spells that it was made from. -/
theorem LetEntry.words_map (inner : β → List Word) (f : ε → β) (entry : LetEntry ε) :
    (entry.map f).words inner = entry.words (inner ∘ f) := by
  cases entry with
  | declaration d => exact d.value.words_map inner f
  | comment c => rfl

/-- Changed children spell what the children spell that they were made from. -/
theorem ExpressionNode.words_map (inner : β → List Word) (f : ε → β) (node : ExpressionNode ε) :
    (node.map f).words inner = node.words (inner ∘ f) := by
  rw [map_eq]
  cases node <;> simp [words, Commented.map, Clause.map, Clause.words, IfClause.map, IfClause.words,
    Branch.map, Branch.words, RecordPair.map, RecordPair.words, Located.map, LetEntry.words_map,
    List.flatMap_map, Function.comp_def]

/-- The words of an expression. -/
def Expression.words (expression : Expression) : List Word :=
  expression.fold fun _ node => node.words id

/-- The words of an expression are those of its node. -/
@[simp]
theorem Expression.words_mk (span : Span) (node : ExpressionNode Expression) :
    words ⟨span, node⟩ = node.words Expression.words := by
  rw [words, fold_eq, ExpressionNode.words_map]
  rfl

/-! ## Modules -/

/-- The words of a dotted name. -/
def nameWords (parts : List Text) : List Word := between (mark .dot) (parts.map ([upper ·]))

/-- The words of a name in a listing. An operator is listed with its parentheses. -/
def ListedName.words (listed : ListedName) : List Word :=
  let name :=
    match listed.name with
    | [] => []
    | u :: rest =>
      if u = .ofChar '(' then inParens [.operator rest.dropLast]
      else if Scan.isUpper u then [upper (u :: rest)]
      else [lower (u :: rest)]
  name ++ listed.constructors.elim [] fun _ => inParens [mark .range]

/-- The words of a listing. -/
def Listing.words : Listing → List Word
  | everything _ => inParens [mark .range]
  | explicit names _ => inParens (listed (names.map (·.value.words)))

/-- The words of a header. -/
def ModuleHeader.words (header : ModuleHeader) : List Word :=
  keyword "module" :: (nameWords header.name.value ++ keyword "exposing" ::
      header.exposes.value.words)

/-- The words of an import. -/
def Import.words (declaration : Import) : List Word :=
  keyword "import" :: (nameWords declaration.name.value ++
    (declaration.qualifier.elim [] (fun name => [keyword "as", upper name.value]) ++
      declaration.exposes.elim [] fun listing => keyword "exposing" :: listing.value.words))

/-- The reserved word that declares operators to group in a way. -/
def Associativity.word : Associativity → String
  | left => "infixl"
  | right => "infixr"
  | none => "infix"

/-- The words of a fixity declaration. -/
def FixityDeclaration.words (fixity : FixityDeclaration) : List Word :=
  [keyword fixity.associativity.word, Word.precedence fixity.precedence.value,
    operatorName fixity.operator.value]

/-- The words of the declaration of another name for a type. -/
def TypeAlias.words (declaration : TypeAlias) : List Word :=
  [keyword "type", lower "alias", upper declaration.name.value] ++
    (declaration.parameters.map (lower ·.value) ++ mark .equals :: declaration.type.value.words)

/-- The words of a constructor. -/
def ConstructorVariant.words (variant : ConstructorVariant) : List Word :=
  upper variant.name :: variant.arguments.flatMap (·.value.words)

/-- The words of the declaration of a type. -/
def Datatype.words (datatype : Datatype) : List Word :=
  [keyword "type", upper datatype.name.value] ++
    (datatype.parameters.map (lower ·.value) ++
      mark .equals :: between (mark .pipe) (datatype.variants.map (·.value.value.words)))

/-- The words of an entry at the top level; a comment has none. -/
def TopLevel.words : TopLevel → List Word
  | declaration d => d.words Expression.words
  | fixity f => f.words
  | typeAlias t => t.words
  | datatype d => d.words
  | comment _ => []

/-- The words of a whole source file. -/
def Module.words (module : Module) : List Word :=
  module.header.elim [] (·.value.words) ++
    (module.imports.flatMap (·.value.value.words) ++ module.body.flatMap (·.value.words))

end Marginalia
