import Marginalia.Proofs.Spelling.Word
import Marginalia.Proofs.Tree.Children

/-!
# Outlines of trees

The outline of a tree is what remains of it when only places are looked at: every part that has a
span, with the parts inside it in the order of its fields. An outline tiles the tokens of a source
when its spans begin and end with tokens and lie inside and beside each other as parts of a text do.
-/

namespace Marginalia

variable {α β ω π τ ε : Type}

/-- The places of a tree. -/
inductive Outline where
  /-- A part of the tree and the parts inside it. -/
  | part (span : Span) (inside : List Outline)
  /-- A comment that is an entry of its own. -/
  | comment (span : Span)

namespace Outline

/-- Where a part or a comment stands. -/
def span : Outline → Span
  | part span _ => span
  | comment span => span

/-- It is a part and no comment. -/
def isPart : Outline → Bool
  | part _ _ => true
  | comment _ => false

/-- Two outlines beside each other, the first one before the second. -/
def Before (first second : Outline) : Prop := first.span.stop.offset ≤ second.span.start.offset

/-- The span lies inside a stretch of source. -/
structure Inside (outline : Outline) (start stop : Nat) : Prop where
  /-- It does not begin earlier. -/
  start_le : start ≤ outline.span.start.offset
  /-- It does not end later. -/
  le_stop : outline.span.stop.offset ≤ stop

/-- The span begins with a token, ends with a token and is not empty; what is inside lies inside its
span, the parts there beside each other in order, and all of that holds of what is inside as
well. -/
inductive Tiles (tokens : List Token) : Outline → Prop where
  | comment (span : Span) : Tiles tokens (.comment span)
  | part {span : Span} {inside : List Outline}
      (starts : ∃ token ∈ solidOf tokens, token.span.start = span.start)
      (stops : ∃ token ∈ solidOf tokens, token.span.stop = span.stop)
      (wide : span.start.offset < span.stop.offset)
      (within : ∀ inner ∈ inside, inner.Inside span.start.offset span.stop.offset)
      (apart : (inside.filter isPart).Pairwise Before)
      (inner : ∀ inner ∈ inside, inner.Tiles tokens) : Tiles tokens (.part span inside)

/-- The token stands within the span. -/
def covers (outline : Outline) (token : Token) : Bool :=
  outline.span.start.offset ≤ token.span.start.offset && token.span.stop.offset ≤
    outline.span.stop.offset

end Outline

/-- The outline of a value with a place. -/
@[simp]
def Located.outlines (inner : α → List Outline) (located : Located α) : List Outline :=
  [.part located.span (inner located.value)]

/-! ## Patterns and types -/

/-- The children of a changed node are the changed children. -/
theorem PatternNode.children_map (f : π → β) (node : PatternNode π) :
    (node.map f).children = node.children.map f := by
  rw [map_eq]
  cases node <;> simp [children, Commented.map, Function.comp_def]

/-- The outline of a pattern. -/
def Pattern.outlines (pattern : Pattern) : List Outline :=
  pattern.fold fun span node => [.part span (node.children.flatMap id)]

/-- The outline of a pattern is its span around the outlines of its children. -/
@[simp]
theorem Pattern.outlines_mk (span : Span) (node : PatternNode Pattern) :
    outlines ⟨span, node⟩ = [.part span (node.children.flatMap outlines)] := by
  rw [outlines, fold_eq, PatternNode.children_map, List.flatMap_map]
  rfl

/-- The children of a changed node are the changed children. -/
theorem TypeNode.children_map (f : τ → β) (node : TypeNode τ) :
    (node.map f).children = node.children.map f := by
  rw [map_eq]
  cases node <;> simp [children, Commented.map, RecordTypeField.map, Function.comp_def]

/-- The outline of a type. -/
def TypeExpression.outlines (type : TypeExpression) : List Outline :=
  type.fold fun span node => [.part span (node.children.flatMap id)]

/-- The outline of a type is its span around the outlines of its children. -/
@[simp]
theorem TypeExpression.outlines_mk (span : Span) (node : TypeNode TypeExpression) :
    outlines ⟨span, node⟩ = [.part span (node.children.flatMap outlines)] := by
  rw [outlines, fold_eq, TypeNode.children_map, List.flatMap_map]
  rfl

/-! ## Expressions -/

/-- The outlines in a clause of a chain: the operator and its operand. -/
def Clause.outlines (inner : ε → List Outline) (clause : Clause ω ε) : List Outline :=
  .part clause.operator.span [] :: inner clause.expression

/-- The outlines in a condition and its body. -/
def IfClause.outlines (inner : ε → List Outline) (clause : IfClause ε) : List Outline :=
  inner clause.condition.value ++ inner clause.body.value

/-- The outlines in a branch. -/
def Branch.outlines (inner : ε → List Outline) (branch : Branch ε) : List Outline :=
  branch.pattern.outlines ++ inner branch.body

/-- The outlines in a definition. -/
def Definition.outlines (inner : ε → List Outline) (definition : Definition ε) : List Outline :=
  definition.pattern.outlines ++
    (definition.arguments.flatMap (·.value.outlines) ++ inner definition.body)

/-- The outlines in a declaration. -/
def Declaration.outlines (inner : ε → List Outline) : Declaration ε → List Outline
  | definition d => d.outlines inner
  | signature s => s.type.value.outlines

/-- The outline of an entry of a `let`. -/
def LetEntry.outlines (inner : ε → List Outline) (entry : Located (LetEntry ε)) : List Outline :=
  match entry.value with
  | declaration d => [.part entry.span (d.outlines (Declaration.outlines inner))]
  | comment _ => [.comment entry.span]

/-- The outlines in a node of an expression. -/
def ExpressionNode.outlines (inner : ε → List Outline) : ExpressionNode ε → List Outline
  | literal _ => []
  | reference _ => []
  | negation operand => inner operand
  | range low high _ => inner low.value ++ inner high.value
  | list terms _ _ => terms.flatMap (inner ·.value)
  | application head arguments _ => inner head ++ arguments.flatMap (inner ·.value)
  | chain left clauses _ => inner left ++ clauses.flatMap (·.outlines inner)
  | conditional first rest final =>
    first.outlines inner ++ (rest.flatMap (·.value.outlines inner) ++ inner final.value)
  | caseOf subject _ branches =>
    inner subject.value ++ branches.flatMap (·.outlines (Branch.outlines inner))
  | letIn entries _ body => entries.flatMap (LetEntry.outlines inner) ++ inner body
  | lambda arguments _ body _ => arguments.flatMap (·.value.outlines) ++ inner body
  | tuple elements _ => elements.flatMap (inner ·.value)
  | parens expression => inner expression.value
  | unit _ => []
  | record _ fields _ _ => fields.flatMap (inner ·.value.value.value)
  | access target _ => inner target
  | accessor _ => []
  | tupleFunction _ => []
  | shader _ => []

/-- A changed declaration has the outlines of the one that it was made from. -/
theorem Declaration.outlines_map (inner : β → List Outline) (f : ε → β)
    (declaration : Declaration ε) :
    (declaration.map f).outlines inner = declaration.outlines (inner ∘ f) := by
  rw [map_eq]
  cases declaration <;> rfl

/-- A changed entry has the outline of the one that it was made from. -/
theorem LetEntry.outlines_map (inner : β → List Outline) (f : ε → β)
    (entry : Located (LetEntry ε)) :
    LetEntry.outlines inner (entry.map (LetEntry.map f)) = LetEntry.outlines (inner ∘ f) entry := by
  obtain ⟨span, entry⟩ := entry
  cases entry with
  | declaration d =>
    simp only [outlines, Located.map, LetEntry.map, Located.outlines]
    rw [Declaration.outlines_map]
  | comment c => rfl

/-- Changed children have the outlines of the children that they were made from. -/
theorem ExpressionNode.outlines_map (inner : β → List Outline) (f : ε → β)
    (node : ExpressionNode ε) : (node.map f).outlines inner = node.outlines (inner ∘ f) := by
  rw [map_eq]
  cases node with
  | letIn entries comments body =>
    have same := congrArg (List.flatMap · entries) (funext (LetEntry.outlines_map inner f))
    simpa [outlines, List.flatMap_map] using same
  | _ =>
    simp [outlines, Commented.map, Clause.map, Clause.outlines, IfClause.map, IfClause.outlines,
      Branch.map, Branch.outlines, RecordPair.map, List.flatMap_map, Located.map]

/-- The outline of an expression. -/
def Expression.outlines (expression : Expression) : List Outline :=
  expression.fold fun span node => [.part span (node.outlines id)]

/-- The outline of an expression is its span around the outlines in its node. -/
@[simp]
theorem Expression.outlines_mk (span : Span) (node : ExpressionNode Expression) :
    outlines ⟨span, node⟩ = [.part span (node.outlines outlines)] := by
  rw [outlines, fold_eq, ExpressionNode.outlines_map]
  rfl

/-! ## Modules -/

/-- The outlines in a constructor. -/
def ConstructorVariant.outlines (variant : ConstructorVariant) : List Outline :=
  variant.arguments.flatMap (·.value.outlines)

/-- The outlines in an entry at the top level. -/
def TopLevel.inside : TopLevel → List Outline
  | declaration d => d.outlines Expression.outlines
  | fixity _ => []
  | typeAlias t => t.type.value.outlines
  | datatype d => d.variants.flatMap (·.value.outlines ConstructorVariant.outlines)
  | comment _ => []

/-- The outline of an entry at the top level. -/
def TopLevel.outlines (entry : Located TopLevel) : List Outline :=
  match entry.value with
  | comment _ => [.comment entry.span]
  | value => [.part entry.span value.inside]

/-- The outlines of the header, the imports and the entries of a whole source file. -/
def Module.outlines (module : Module) : List Outline :=
  module.header.elim [] (·.outlines fun _ => []) ++
    (module.imports.flatMap (·.value.outlines fun _ => []) ++ module.body.flatMap TopLevel.outlines)

end Marginalia
