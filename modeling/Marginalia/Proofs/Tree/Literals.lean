import Marginalia.Proofs.Tree.Outline

/-!
# The literals of a tree

All literals that a tree holds, those in its patterns among them. What a node holds itself is listed
apart from what its children hold.
-/

namespace Marginalia

variable {α β π ε : Type}

/-- The literal is a floating-point number. -/
def Literal.isFloat : Literal → Bool
  | float _ _ => true
  | _ => false

/-- No literal is a floating-point number. -/
def NoFloats (literals : List Literal) : Prop := ∀ literal ∈ literals, literal.isFloat = false

instance (literals : List Literal) : Decidable (NoFloats literals) :=
  inferInstanceAs (Decidable (∀ literal ∈ literals, literal.isFloat = false))

/-- There is none in two lists if there is none in either. -/
theorem noFloats_append {first second : List Literal} :
    NoFloats (first ++ second) ↔ NoFloats first ∧ NoFloats second :=
  List.forall_mem_append

/-- There is none in what some values hold if there is none in what each of them holds. -/
theorem noFloats_flatMap {values : List α} {literals : α → List Literal} :
    NoFloats (values.flatMap literals) ↔ ∀ value ∈ values, NoFloats (literals value) := by
  rw [NoFloats, List.forall_mem_flatMap]
  rfl

/-! ## Patterns -/

/-- The literal that a node of a pattern is. -/
def PatternNode.ownLiterals : PatternNode π → List Literal
  | literal l => [l]
  | _ => []

/-- Changed children are around the same literals. -/
theorem PatternNode.ownLiterals_map (f : π → β) (node : PatternNode π) :
    (node.map f).ownLiterals = node.ownLiterals := by
  rw [map_eq]
  cases node <;> rfl

/-- The literals of a pattern. -/
def Pattern.literals (pattern : Pattern) : List Literal :=
  pattern.fold fun _ node => node.ownLiterals ++ node.children.flatMap id

/-- The literals of a pattern are the one that its node is, and those of the node's children. -/
theorem Pattern.literals_mk (span : Span) (node : PatternNode Pattern) :
    literals ⟨span, node⟩ = node.ownLiterals ++ node.children.flatMap literals := by
  rw [literals, fold_eq, PatternNode.ownLiterals_map, PatternNode.children_map, List.flatMap_map]
  rfl

/-! ## Expressions -/

/-- The patterns of a declaration. -/
def Declaration.patterns : Declaration ε → List Pattern
  | definition d => d.pattern :: d.arguments.map (·.value)
  | signature _ => []

/-- The patterns of an entry of a `let`. -/
def LetEntry.patterns : LetEntry ε → List Pattern
  | declaration d => d.value.patterns
  | comment _ => []

/-- The patterns that a node of an expression holds itself. -/
def ExpressionNode.patterns : ExpressionNode ε → List Pattern
  | caseOf _ _ branches => branches.map (·.value.pattern)
  | letIn entries _ _ => entries.flatMap (·.value.patterns)
  | lambda arguments _ _ _ => arguments.map (·.value)
  | _ => []

/-- The literals that a node of an expression holds itself: the one that it is, or those in its
patterns. -/
def ExpressionNode.ownLiterals : ExpressionNode ε → List Literal
  | literal l => [l]
  | node => node.patterns.flatMap Pattern.literals

/-- A changed declaration has the same patterns. -/
theorem Declaration.patterns_map (f : ε → β) (declaration : Declaration ε) :
    (declaration.map f).patterns = declaration.patterns := by
  cases declaration <;> rfl

/-- A changed entry has the same patterns. -/
theorem LetEntry.patterns_map (f : ε → β) (entry : LetEntry ε) :
    (entry.map f).patterns = entry.patterns := by
  cases entry with
  | declaration d => exact d.value.patterns_map f
  | comment c => rfl

/-- Changed children are around the same literals. -/
theorem ExpressionNode.ownLiterals_map (f : ε → β) (node : ExpressionNode ε) :
    (node.map f).ownLiterals = node.ownLiterals := by
  rw [map_eq]
  cases node <;> simp [ownLiterals, patterns, Located.map, Branch.map, LetEntry.patterns_map,
    Function.comp_def, List.flatMap_map]

/-- A changed declaration has the changed body. -/
theorem Declaration.bodies_map (f : ε → β) (declaration : Declaration ε) :
    (declaration.map f).bodies = declaration.bodies.map f := by
  cases declaration <;> rfl

/-- A changed entry has the changed body. -/
theorem LetEntry.bodies_map (f : ε → β) (entry : LetEntry ε) :
    (entry.map f).bodies = entry.bodies.map f := by
  cases entry with
  | declaration d => exact d.value.bodies_map f
  | comment c => rfl

/-- The children of a changed node are the changed children. -/
theorem ExpressionNode.children_map (f : ε → β) (node : ExpressionNode ε) :
    (node.map f).children = node.children.map f := by
  rw [map_eq]
  cases node <;> simp [children, Commented.map, Clause.map, IfClause.map, IfClause.children,
    Branch.map, RecordPair.map, Located.map, LetEntry.bodies_map, Function.comp_def,
    List.flatMap_map, List.map_flatMap]

/-- The literals of an expression. -/
def Expression.literals (expression : Expression) : List Literal :=
  expression.fold fun _ node => node.ownLiterals ++ node.children.flatMap id

/-- The literals of an expression are those that its node holds, and those of the node's
children. -/
theorem Expression.literals_mk (span : Span) (node : ExpressionNode Expression) :
    literals ⟨span, node⟩ = node.ownLiterals ++ node.children.flatMap literals := by
  rw [literals, fold_eq, ExpressionNode.ownLiterals_map, ExpressionNode.children_map,
    List.flatMap_map]
  rfl

/-! ## Modules -/

/-- The literals of a declaration. -/
def Declaration.literals (declaration : Declaration Expression) : List Literal :=
  declaration.patterns.flatMap Pattern.literals ++ declaration.bodies.flatMap Expression.literals

/-- The literals of an entry at the top level. -/
def TopLevel.literals : TopLevel → List Literal
  | declaration d => d.literals
  | _ => []

/-- The literals of a whole source file. -/
def Module.literals (module : Module) : List Literal := module.body.flatMap (·.value.literals)

end Marginalia
