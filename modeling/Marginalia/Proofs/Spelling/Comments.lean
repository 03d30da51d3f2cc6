import Marginalia.Proofs.Tree.Children

/-!
# The comments of a tree

All comments that a tree holds, in the order of the fields they are kept in. A part that holds trees
is written over the comments of these, so that each kind of node has one equation and none is read
back through the recursion.
-/

namespace Marginalia

variable {α β ω π τ ε : Type}

/-! ## Rendering -/

/-- A comment with its delimiters, as it was written. -/
def Comment.render : Comment → Text
  | line text => Text.ofString "--" ++ text
  | block lines =>
    Text.ofString "\x7b-" ++ ([Text.newline].intercalate lines ++ Text.ofString "-\x7d")

/-! ## Comments around values -/

/-- The comments in a value that holds none. -/
@[simp]
def uncommented (_ : α) : Comments := []

namespace Commented

/-- The comments before a value, those in it, and those after it. -/
@[simp]
def allComments (inner : α → Comments) (commented : Commented α) : Comments :=
  commented.before ++ (inner commented.value ++ commented.after)

end Commented

/-! ## Patterns -/

/-- The comments of a node of a pattern. -/
def PatternNode.allComments (inner : π → Comments) : PatternNode π → Comments
  | anything => []
  | unit comments => comments
  | literal _ => []
  | name _ => []
  | operator _ => []
  | data _ arguments => arguments.flatMap (·.allComments inner)
  | parens pattern => pattern.allComments inner
  | tuple elements => elements.flatMap (·.allComments inner)
  | emptyList comments => comments
  | list elements => elements.flatMap (·.allComments inner)
  | cons first rest => first.allComments inner ++ rest.flatMap (·.allComments inner)
  | record fields => fields.flatMap (·.allComments uncommented)
  | named pattern n => pattern.allComments inner ++ n.allComments uncommented

/-- Comments are found in changed children as in the children they were made from. -/
theorem PatternNode.allComments_map (inner : β → Comments) (f : π → β) (node : PatternNode π) :
    (node.map f).allComments inner = node.allComments (inner ∘ f) := by
  rw [map_eq]
  cases node <;> simp [allComments, Commented.map, List.flatMap_map]

/-- The comments of a pattern. -/
def Pattern.allComments (pattern : Pattern) : Comments :=
  pattern.fold fun _ node => node.allComments id

/-- The comments of a pattern are those of its node. -/
@[simp]
theorem Pattern.allComments_mk (span : Span) (node : PatternNode Pattern) :
    allComments ⟨span, node⟩ = node.allComments Pattern.allComments := by
  rw [allComments, fold_eq, PatternNode.allComments_map]
  rfl

/-! ## Types -/

/-- The comments of a field of a record type. -/
@[simp]
def RecordTypeField.allComments (inner : τ → Comments) (field : RecordTypeField τ) : Comments :=
  field.name.allComments uncommented ++ field.type.allComments inner

/-- The comments of a node of a type. -/
def TypeNode.allComments (inner : τ → Comments) : TypeNode τ → Comments
  | unit comments => comments
  | name _ => []
  | construction _ arguments => arguments.flatMap (·.allComments inner)
  | parens type => type.allComments inner
  | tuple elements => elements.flatMap (·.allComments inner)
  | record base fields trailing _ =>
    base.elim [] (·.allComments uncommented) ++
      (fields.flatMap (·.allComments (RecordTypeField.allComments inner)) ++ trailing)
  | function first rest _ => first.allComments inner ++ rest.flatMap (·.allComments inner)

/-- Comments are found in changed children as in the children they were made from. -/
theorem TypeNode.allComments_map (inner : β → Comments) (f : τ → β) (node : TypeNode τ) :
    (node.map f).allComments inner = node.allComments (inner ∘ f) := by
  rw [map_eq]
  cases node <;> simp [allComments, Commented.map, RecordTypeField.map, List.flatMap_map]

/-- The comments of a type. -/
def TypeExpression.allComments (type : TypeExpression) : Comments :=
  type.fold fun _ node => node.allComments id

/-- The comments of a type are those of its node. -/
@[simp]
theorem TypeExpression.allComments_mk (span : Span) (node : TypeNode TypeExpression) :
    allComments ⟨span, node⟩ = node.allComments TypeExpression.allComments := by
  rw [allComments, fold_eq, TypeNode.allComments_map]
  rfl

/-! ## Expressions -/

/-- The comments of a clause of a chain. -/
@[simp]
def Clause.allComments (inner : ε → Comments) (clause : Clause ω ε) : Comments :=
  clause.preOperator ++ (clause.preExpression ++ inner clause.expression)

/-- The comments of a condition and its body. -/
@[simp]
def IfClause.allComments (inner : ε → Comments) (clause : IfClause ε) : Comments :=
  clause.condition.allComments inner ++ clause.body.allComments inner

/-- The comments of a branch. -/
@[simp]
def Branch.allComments (inner : ε → Comments) (branch : Branch ε) : Comments :=
  branch.beforePattern ++
    (branch.pattern.allComments ++ (branch.beforeArrow ++ (branch.afterArrow ++ inner branch.body)))

/-- The comments of a field of a record. -/
@[simp]
def RecordPair.allComments (inner : ε → Comments) (pair : RecordPair ε) : Comments :=
  pair.key.allComments uncommented ++ pair.value.allComments inner

/-- The comments of a definition. -/
@[simp]
def Definition.allComments (inner : ε → Comments) (definition : Definition ε) : Comments :=
  definition.pattern.allComments ++
    (definition.arguments.flatMap (·.allComments Pattern.allComments) ++
      (definition.comments ++ inner definition.body))

/-- The comments of a signature. -/
@[simp]
def Signature.allComments (signature : Signature) : Comments :=
  signature.name.allComments uncommented ++ signature.type.allComments TypeExpression.allComments

/-- The comments of a declaration. -/
def Declaration.allComments (inner : ε → Comments) : Declaration ε → Comments
  | definition d => d.allComments inner
  | signature s => s.allComments

/-- The comments of an entry of a `let`; an entry may be a comment. -/
def LetEntry.allComments (inner : ε → Comments) : LetEntry ε → Comments
  | declaration d => d.value.allComments inner
  | comment c => [c]

/-- The comments of a node of an expression. -/
def ExpressionNode.allComments (inner : ε → Comments) : ExpressionNode ε → Comments
  | literal _ => []
  | reference _ => []
  | negation operand => inner operand
  | range low high _ => low.allComments inner ++ high.allComments inner
  | list terms trailing _ => terms.flatMap (·.allComments inner) ++ trailing
  | application head arguments _ => inner head ++ arguments.flatMap (·.allComments inner)
  | chain left clauses _ => inner left ++ clauses.flatMap (·.allComments inner)
  | conditional first rest final =>
    first.allComments inner ++
      (rest.flatMap (·.allComments (IfClause.allComments inner)) ++ final.allComments inner)
  | caseOf subject _ branches =>
    subject.allComments inner ++ branches.flatMap (·.value.allComments inner)
  | letIn entries bodyComments body =>
    entries.flatMap (·.value.allComments inner) ++ (bodyComments ++ inner body)
  | lambda arguments comments body _ =>
    arguments.flatMap (·.allComments Pattern.allComments) ++ (comments ++ inner body)
  | tuple elements _ => elements.flatMap (·.allComments inner)
  | parens expression => expression.allComments inner
  | unit comments => comments
  | record base fields trailing _ =>
    base.elim [] (·.allComments uncommented) ++
      (fields.flatMap (·.allComments (RecordPair.allComments inner)) ++ trailing)
  | access target _ => inner target
  | accessor _ => []
  | tupleFunction _ => []
  | shader _ => []

/-- Comments are found in a changed declaration as in the one it was made from. -/
theorem Declaration.allComments_map (inner : β → Comments) (f : ε → β)
    (declaration : Declaration ε) :
    (declaration.map f).allComments inner = declaration.allComments (inner ∘ f) := by
  rw [map_eq]
  cases declaration <;> rfl

/-- Comments are found in a changed entry as in the one it was made from. -/
theorem LetEntry.allComments_map (inner : β → Comments) (f : ε → β) (entry : LetEntry ε) :
    (entry.map f).allComments inner = entry.allComments (inner ∘ f) := by
  cases entry with
  | declaration d => exact d.value.allComments_map inner f
  | comment c => rfl

/-- Comments are found in changed children as in the children they were made from. -/
theorem ExpressionNode.allComments_map (inner : β → Comments) (f : ε → β)
    (node : ExpressionNode ε) : (node.map f).allComments inner = node.allComments (inner ∘ f) := by
  rw [map_eq]
  cases node <;> simp [allComments, Commented.map, Clause.map, IfClause.map, Branch.map,
    RecordPair.map, Located.map, List.flatMap_map, LetEntry.allComments_map]

/-- The comments of an expression. -/
def Expression.allComments (expression : Expression) : Comments :=
  expression.fold fun _ node => node.allComments id

/-- The comments of an expression are those of its node. -/
@[simp]
theorem Expression.allComments_mk (span : Span) (node : ExpressionNode Expression) :
    allComments ⟨span, node⟩ = node.allComments Expression.allComments := by
  rw [allComments, fold_eq, ExpressionNode.allComments_map]
  rfl

/-! ## Modules -/

/-- The comments of a name in a listing. -/
@[simp]
def ListedName.allComments (listed : ListedName) : Comments := listed.constructors.elim [] id

/-- The comments of a listing. -/
def Listing.allComments : Listing → Comments
  | everything comments => comments
  | explicit names trailing => names.flatMap (·.allComments ListedName.allComments) ++ trailing

/-- The comments of a header. -/
@[simp]
def ModuleHeader.allComments (header : ModuleHeader) : Comments :=
  header.name.allComments uncommented ++ header.exposes.allComments Listing.allComments

/-- The comments of an import. -/
@[simp]
def Import.allComments (declaration : Import) : Comments :=
  declaration.name.allComments uncommented ++
    (declaration.qualifier.elim [] (·.allComments uncommented) ++
      declaration.exposes.elim [] (·.allComments Listing.allComments))

/-- The comments of a fixity declaration. -/
@[simp]
def FixityDeclaration.allComments (fixity : FixityDeclaration) : Comments :=
  fixity.precedence.allComments uncommented ++ fixity.operator.allComments uncommented

/-- The comments of the declaration of another name for a type. -/
@[simp]
def TypeAlias.allComments (declaration : TypeAlias) : Comments :=
  declaration.name.allComments uncommented ++
    (declaration.parameters.flatMap (·.allComments uncommented) ++
      declaration.type.allComments TypeExpression.allComments)

/-- The comments of a constructor. -/
@[simp]
def ConstructorVariant.allComments (variant : ConstructorVariant) : Comments :=
  variant.arguments.flatMap (·.allComments TypeExpression.allComments)

/-- The comments of the declaration of a type. -/
@[simp]
def Datatype.allComments (datatype : Datatype) : Comments :=
  datatype.name.allComments uncommented ++
    (datatype.parameters.flatMap (·.allComments uncommented) ++
      datatype.variants.flatMap (·.allComments (ConstructorVariant.allComments ·.value)))

/-- The comments of an entry at the top level; an entry may be a comment. -/
def TopLevel.allComments : TopLevel → Comments
  | declaration d => d.allComments Expression.allComments
  | fixity f => f.allComments
  | typeAlias t => t.allComments
  | datatype d => d.allComments
  | comment c => [c]

/-- The comments of a whole source file. -/
def Module.allComments (module : Module) : Comments :=
  module.initialComments ++
    (module.header.elim [] (·.value.allComments) ++
      (module.imports.flatMap (·.allComments (Import.allComments ·.value)) ++
        module.body.flatMap (·.value.allComments)))

end Marginalia
