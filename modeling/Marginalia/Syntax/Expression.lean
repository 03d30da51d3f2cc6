import Marginalia.Syntax.Pattern
import Marginalia.Syntax.TypeExpression

/-!
# Expressions

Expressions, and the definitions and signatures that may stand in a `let` as well as at the top
level. Operator chains are flat: grouping them needs fixities that may be declared anywhere in a
module. All parts are written over the type `ε` of the expressions inside them;
`ExpressionNode.children` lists these in source order, and `Expression.fold` computes from the
leaves up.
-/

namespace Marginalia

/-- One step of an operator chain: an operator, the comments on either side of it, and its right
operand. -/
structure Clause (ω ε : Type) where
  /-- The comments before the operator. -/
  preOperator : Comments
  /-- The operator and where it was written. -/
  operator : Located ω
  /-- The comments after the operator. -/
  preExpression : Comments
  /-- The operand on the right of the operator. -/
  expression : ε
deriving Repr, DecidableEq

/-- A condition and what is computed when it holds. -/
structure IfClause (ε : Type) where
  /-- The condition, with the comments up to `then`. -/
  condition : Commented ε
  /-- The body, with the comments up to `else`. -/
  body : Commented ε
deriving Repr, DecidableEq

/-- One alternative of a case distinction. -/
structure Branch (ε : Type) where
  /-- The comments before the pattern. -/
  beforePattern : Comments
  /-- What the subject has to look like. -/
  pattern : Pattern
  /-- The comments between the pattern and the arrow. -/
  beforeArrow : Comments
  /-- The comments after the arrow. -/
  afterArrow : Comments
  /-- What is computed for such a subject. -/
  body : ε

/-- A field of a record and its value. -/
structure RecordPair (ε : Type) where
  /-- The name of the field and the comments after it. -/
  key : Commented Text
  /-- The value of the field and the comments before it. -/
  value : Commented ε
  /-- A line break stands between the name and the value. -/
  multiline : Bool
deriving Repr, DecidableEq

/-- A value or function definition. -/
structure Definition (ε : Type) where
  /-- The name, operator or pattern that is defined. -/
  pattern : Pattern
  /-- The argument patterns. -/
  arguments : List (Commented Pattern)
  /-- The comments on both sides of the equals sign, in source order. -/
  comments : Comments
  /-- What the name stands for. -/
  body : ε

/-- A type signature. -/
structure Signature where
  /-- The annotated name and the comments before the colon. -/
  name : Commented AnnotatedName
  /-- The type and the comments after the colon. -/
  type : Commented TypeExpression

/-- A definition or a signature. -/
inductive Declaration (ε : Type) where
  | definition (definition : Definition ε)
  | signature (signature : Signature)

/-- An entry of a `let`: a declaration, or a comment that stands between declarations. -/
inductive LetEntry (ε : Type) where
  | declaration (declaration : Located (Declaration ε))
  | comment (comment : Comment)

/-- The forms of an expression over the expressions `ε` inside it. -/
inductive ExpressionNode (ε : Type) where
  | literal (literal : Literal)
  | reference (reference : Reference)
  /-- A minus sign directly before an operand. -/
  | negation (operand : ε)
  | range (low high : Commented ε) (multiline : Bool)
  | list (terms : List (Commented ε)) (trailing : Comments) (multiline : Bool)
  /-- A function and its arguments. -/
  | application (head : ε) (arguments : List (Commented ε)) (layout : ApplicationLayout)
  /-- A flat chain of operators. -/
  | chain (left : ε) (clauses : List (Clause Reference ε)) (layout : Layout)
  /-- An `if` with its `else if` clauses; the comments after an `else` stand before its clause. -/
  | conditional (first : IfClause ε) (rest : List (Commented (IfClause ε))) (final : Commented ε)
  | caseOf (subject : Commented ε) (multilineSubject : Bool) (branches : List (Located (Branch ε)))
  | letIn (entries : List (Located (LetEntry ε))) (bodyComments : Comments) (body : ε)
  | lambda (arguments : List (Commented Pattern)) (comments : Comments) (body : ε)
        (multiline : Bool)
  | tuple (elements : List (Commented ε)) (multiline : Bool)
  | parens (expression : Commented ε)
  | unit (comments : Comments)
  /-- A record, perhaps an update of the record named by `base`. -/
  | record (base : Option (Commented Text)) (fields : List (Commented (RecordPair ε)))
      (trailing : Comments) (multiline : Bool)
  | access (target : ε) (field : Text)
  /-- A function that reads a field. -/
  | accessor (field : Text)
  /-- A function that makes a tuple. -/
  | tupleFunction (arity : Nat)
  | shader (source : Text)

/-- An expression and where it was written. -/
structure Expression where
  /-- The stretch of source of the expression. -/
  span : Span
  /-- The form of the expression. -/
  node : ExpressionNode Expression

namespace Clause

/-- Changes the operand of every clause, knowing that it is one of the clauses'. -/
def mapMem (clauses : List (Clause ω ε)) (f : (e : ε) → e ∈ clauses.map (·.expression) → β) :
    List (Clause ω β) :=
  clauses.attach.map fun clause =>
    ⟨clause.1.preOperator, clause.1.operator, clause.1.preExpression,
      f clause.1.expression (List.mem_map.mpr ⟨clause.1, clause.2, rfl⟩)⟩

/-- An operand is smaller than the list of clauses. -/
theorem sizeOf_lt_of_mem [SizeOf ω] [SizeOf ε] (clauses : List (Clause ω ε)) {e : ε}
    (member : e ∈ clauses.map (·.expression)) : sizeOf e < sizeOf clauses := by
  obtain ⟨clause, inList, rfl⟩ := List.mem_map.mp member
  have inClauses := List.sizeOf_lt_of_mem inList
  cases clause with
  | mk preOperator operator preExpression expression =>
    simp only [mk.sizeOf_spec] at inClauses ⊢; omega

end Clause

namespace IfClause

/-- The condition and the body. -/
def children (clause : IfClause ε) : List ε := [clause.condition.value, clause.body.value]

/-- Changes condition and body, knowing that they are the clause's. -/
def mapMem (clause : IfClause ε) (f : (e : ε) → e ∈ clause.children → β) : IfClause β :=
  ⟨⟨clause.condition.before, f clause.condition.value (.head _), clause.condition.after⟩,
    ⟨clause.body.before, f clause.body.value (.tail _ (.head _)), clause.body.after⟩⟩

/-- Changes conditions and bodies of several clauses, knowing that they are the clauses'. -/
def mapAllMem (clauses : List (Commented (IfClause ε)))
    (f : (e : ε) → e ∈ clauses.flatMap (·.value.children) → β) : List (Commented (IfClause β)) :=
  clauses.attach.map fun clause =>
    ⟨clause.1.before,
      clause.1.value.mapMem fun e member => f e (List.mem_flatMap.mpr ⟨clause.1, clause.2, member⟩),
      clause.1.after⟩

/-- Condition and body are smaller than their clause. -/
theorem sizeOf_lt_of_mem [SizeOf ε] {clause : IfClause ε} {e : ε} (member : e ∈ clause.children) :
    sizeOf e < sizeOf clause := by
  cases clause with
  | mk condition body =>
    have inCondition := condition.sizeOf_value_lt
    have inBody := body.sizeOf_value_lt
    simp only [children, List.mem_cons, List.not_mem_nil, or_false] at member
    simp only [mk.sizeOf_spec]
    rcases member with rfl | rfl <;> omega

/-- Conditions and bodies are smaller than the list of their clauses. -/
theorem sizeOf_lt_of_mem_flatMap [SizeOf ε] (clauses : List (Commented (IfClause ε))) {e : ε}
    (member : e ∈ clauses.flatMap (·.value.children)) : sizeOf e < sizeOf clauses := by
  obtain ⟨clause, inList, inClause⟩ := List.mem_flatMap.mp member
  have inside := sizeOf_lt_of_mem inClause
  have inCommented := clause.sizeOf_value_lt
  have inClauses := List.sizeOf_lt_of_mem inList
  omega

end IfClause

namespace Branch

/-- Changes the body of every branch, knowing that it is one of the branches'. -/
def mapMem (branches : List (Located (Branch ε)))
    (f : (e : ε) → e ∈ branches.map (·.value.body) → β) : List (Located (Branch β)) :=
  branches.attach.map fun branch =>
    let inner := branch.1.value
    ⟨branch.1.span,
      ⟨inner.beforePattern, inner.pattern, inner.beforeArrow, inner.afterArrow,
        f inner.body (List.mem_map.mpr ⟨branch.1, branch.2, rfl⟩)⟩⟩

/-- A body is smaller than the list of branches. -/
theorem sizeOf_lt_of_mem [SizeOf ε] (branches : List (Located (Branch ε))) {e : ε}
    (member : e ∈ branches.map (·.value.body)) : sizeOf e < sizeOf branches := by
  obtain ⟨branch, inList, rfl⟩ := List.mem_map.mp member
  have inBranches := List.sizeOf_lt_of_mem inList
  cases branch with
  | mk span value =>
    cases value with
    | mk beforePattern pattern beforeArrow afterArrow body =>
      simp only [Located.mk.sizeOf_spec, mk.sizeOf_spec] at inBranches ⊢; omega

end Branch

namespace RecordPair

/-- Changes the value of every field, knowing that it is one of the fields'. -/
def mapMem (fields : List (Commented (RecordPair ε)))
    (f : (e : ε) → e ∈ fields.map (·.value.value.value) → β) : List (Commented (RecordPair β)) :=
  fields.attach.map fun field =>
    let inner := field.1.value
    ⟨field.1.before,
      ⟨inner.key,
        ⟨inner.value.before, f inner.value.value (List.mem_map.mpr ⟨field.1, field.2, rfl⟩),
          inner.value.after⟩,
        inner.multiline⟩,
      field.1.after⟩

/-- A field's value is smaller than the list of fields. -/
theorem sizeOf_lt_of_mem [SizeOf ε] (fields : List (Commented (RecordPair ε))) {e : ε}
    (member : e ∈ fields.map (·.value.value.value)) : sizeOf e < sizeOf fields := by
  obtain ⟨field, inList, rfl⟩ := List.mem_map.mp member
  have inFields := List.sizeOf_lt_of_mem inList
  have inCommented := field.sizeOf_value_lt
  have inPair := field.value.value.sizeOf_value_lt
  cases same : field.value with
  | mk key value multiline =>
    simp only [same, mk.sizeOf_spec] at inCommented inPair ⊢; omega

end RecordPair

namespace Declaration

/-- The body of a definition; a signature has none. -/
def bodies : Declaration ε → List ε
  | definition d => [d.body]
  | signature _ => []

/-- Changes the body of a definition, knowing that it is the declaration's. -/
def mapMem : (declaration : Declaration ε) → ((e : ε) → e ∈ declaration.bodies → β) → Declaration β
  | definition d, f => definition ⟨d.pattern, d.arguments, d.comments, f d.body (.head _)⟩
  | signature a, _ => signature a

/-- Changes the body of a definition. -/
def map (f : ε → β) (declaration : Declaration ε) : Declaration β :=
  declaration.mapMem fun e _ => f e

/-- A body is smaller than its declaration. -/
theorem sizeOf_lt_of_mem [SizeOf ε] {declaration : Declaration ε} {e : ε}
    (member : e ∈ declaration.bodies) : sizeOf e < sizeOf declaration := by
  cases declaration with
  | definition d =>
    obtain rfl := List.mem_singleton.mp member
    cases d with
    | mk pattern arguments comments body =>
      simp only [definition.sizeOf_spec, Definition.mk.sizeOf_spec]; omega
  | signature a => simp [bodies] at member

end Declaration

namespace LetEntry

/-- The body of an entry that is a definition. -/
def bodies : LetEntry ε → List ε
  | declaration d => d.value.bodies
  | comment _ => []

/-- Changes the body of an entry, knowing that it is the entry's. -/
def mapMem : (entry : LetEntry ε) → ((e : ε) → e ∈ entry.bodies → β) → LetEntry β
  | declaration d, f => declaration ⟨d.span, d.value.mapMem f⟩
  | comment c, _ => comment c

/-- Changes the bodies of several entries, knowing that they are the entries'. -/
def mapAllMem (entries : List (Located (LetEntry ε)))
    (f : (e : ε) → e ∈ entries.flatMap (·.value.bodies) → β) : List (Located (LetEntry β)) :=
  entries.attach.map fun entry =>
    ⟨entry.1.span,
      entry.1.value.mapMem fun e member => f e (List.mem_flatMap.mpr ⟨entry.1, entry.2, member⟩)⟩

/-- A body is smaller than its entry. -/
theorem sizeOf_lt_of_mem [SizeOf ε] {entry : LetEntry ε} {e : ε} (member : e ∈ entry.bodies) :
    sizeOf e < sizeOf entry := by
  cases entry with
  | declaration d =>
    cases d with
    | mk span value =>
      have inside := Declaration.sizeOf_lt_of_mem (show e ∈ value.bodies from member)
      simp only [declaration.sizeOf_spec, Located.mk.sizeOf_spec]; omega
  | comment c => simp [bodies] at member

/-- A body is smaller than the list of entries. -/
theorem sizeOf_lt_of_mem_flatMap [SizeOf ε] (entries : List (Located (LetEntry ε))) {e : ε}
    (member : e ∈ entries.flatMap (·.value.bodies)) : sizeOf e < sizeOf entries := by
  obtain ⟨entry, inList, inEntry⟩ := List.mem_flatMap.mp member
  have inside := sizeOf_lt_of_mem inEntry
  have inEntries := List.sizeOf_lt_of_mem inList
  cases entry with
  | mk span value => simp only [Located.mk.sizeOf_spec] at inEntries inside; omega

end LetEntry

namespace ExpressionNode

/-- The name under which the form of an expression is printed. -/
def kind : ExpressionNode ε → String
  | literal .. => "Literal"
  | reference .. => "VarExpr"
  | negation .. => "Unary"
  | range .. => "Range"
  | list .. => "ExplicitList"
  | application .. => "App"
  | chain .. => "Binops"
  | conditional .. => "If"
  | caseOf .. => "Case"
  | letIn .. => "Let"
  | lambda .. => "Lambda"
  | tuple .. => "Tuple"
  | parens .. => "Parens"
  | unit .. => "Unit"
  | record .. => "Record"
  | access .. => "Access"
  | accessor .. => "AccessFunction"
  | tupleFunction .. => "TupleFunction"
  | shader .. => "GLShader"

/-- The expressions a node is made of, in source order. -/
def children : ExpressionNode ε → List ε
  | literal _ => []
  | reference _ => []
  | negation operand => [operand]
  | range low high _ => [low.value, high.value]
  | list terms _ _ => terms.map (·.value)
  | application head arguments _ => head :: arguments.map (·.value)
  | chain left clauses _ => left :: clauses.map (·.expression)
  | conditional first rest final =>
    first.children ++ (rest.flatMap (·.value.children) ++ [final.value])
  | caseOf subject _ branches => subject.value :: branches.map (·.value.body)
  | letIn entries _ body => entries.flatMap (·.value.bodies) ++ [body]
  | lambda _ _ body _ => [body]
  | tuple elements _ => elements.map (·.value)
  | parens expression => [expression.value]
  | unit _ => []
  | record _ fields _ _ => fields.map (·.value.value.value)
  | access target _ => [target]
  | accessor _ => []
  | tupleFunction _ => []
  | shader _ => []

/-- Changes every child of a node, knowing that it is one of the node's. -/
def mapMem : (node : ExpressionNode ε) → ((e : ε) → e ∈ node.children → β) → ExpressionNode β
  | literal l, _ => literal l
  | reference r, _ => reference r
  | negation operand, f => negation (f operand (.head _))
  | range low high multiline, f =>
    range ⟨low.before, f low.value (.head _), low.after⟩
      ⟨high.before, f high.value (.tail _ (.head _)), high.after⟩ multiline
  | list terms trailing multiline, f => list (Commented.mapMem terms f) trailing multiline
  | application head arguments layout, f =>
    application (f head (.head _)) (Commented.mapMem arguments fun e member =>
        f e (.tail _ member)) layout
  | chain left clauses layout, f =>
    chain (f left (.head _)) (Clause.mapMem clauses fun e member => f e (.tail _ member)) layout
  | conditional first rest final, f =>
    conditional (first.mapMem fun e member => f e (List.mem_append_left _ member))
      (IfClause.mapAllMem rest fun e member =>
        f e (List.mem_append_right _ (List.mem_append_left _ member)))
      ⟨final.before,
        f final.value (List.mem_append_right _ (List.mem_append_right _ (.head _))), final.after⟩
  | caseOf subject multilineSubject branches, f =>
    caseOf ⟨subject.before, f subject.value (.head _), subject.after⟩ multilineSubject
      (Branch.mapMem branches fun e member => f e (.tail _ member))
  | letIn entries bodyComments body, f =>
    letIn (LetEntry.mapAllMem entries fun e member => f e (List.mem_append_left _ member))
        bodyComments (f body (List.mem_append_right _ (.head _)))
  | lambda arguments comments body multiline, f =>
    lambda arguments comments (f body (.head _)) multiline
  | tuple elements multiline, f => tuple (Commented.mapMem elements f) multiline
  | parens expression, f =>
    parens ⟨expression.before, f expression.value expression.value_mem_singleton, expression.after⟩
  | unit comments, _ => unit comments
  | record base fields trailing multiline, f =>
    record base (RecordPair.mapMem fields f) trailing multiline
  | access target field, f => access (f target (.head _)) field
  | accessor field, _ => accessor field
  | tupleFunction arity, _ => tupleFunction arity
  | shader source, _ => shader source

/-- Changes every child of a node. -/
def map (f : ε → β) (node : ExpressionNode ε) : ExpressionNode β := node.mapMem fun e _ => f e

/-- A child is smaller than its node. -/
theorem sizeOf_lt_of_mem [SizeOf ε] {node : ExpressionNode ε} {e : ε} (member : e ∈ node.children) :
    sizeOf e < sizeOf node := by
  cases node with
  | negation operand =>
    obtain rfl := List.mem_singleton.mp member
    simp only [negation.sizeOf_spec]; omega
  | range low high multiline =>
    have inLow := low.sizeOf_value_lt
    have inHigh := high.sizeOf_value_lt
    simp only [children, List.mem_cons, List.not_mem_nil, or_false] at member
    simp only [range.sizeOf_spec]
    rcases member with rfl | rfl <;> omega
  | list terms trailing multiline =>
    have smaller := Commented.sizeOf_lt_of_mem terms member
    simp only [list.sizeOf_spec]; omega
  | application head arguments layout =>
    simp only [application.sizeOf_spec]
    rcases List.mem_cons.mp member with rfl | inArguments
    · omega
    · have smaller := Commented.sizeOf_lt_of_mem arguments inArguments
      omega
  | chain left clauses layout =>
    simp only [chain.sizeOf_spec]
    rcases List.mem_cons.mp member with rfl | inClauses
    · omega
    · have smaller := Clause.sizeOf_lt_of_mem clauses inClauses
      omega
  | conditional first rest final =>
    simp only [conditional.sizeOf_spec]
    rcases List.mem_append.mp member with inFirst | inOthers
    · have smaller := IfClause.sizeOf_lt_of_mem inFirst
      omega
    · rcases List.mem_append.mp inOthers with inRest | inFinal
      · have smaller := IfClause.sizeOf_lt_of_mem_flatMap rest inRest
        omega
      · obtain rfl := List.mem_singleton.mp inFinal
        have smaller := final.sizeOf_value_lt
        omega
  | caseOf subject multilineSubject branches =>
    simp only [caseOf.sizeOf_spec]
    rcases List.mem_cons.mp member with rfl | inBranches
    · have smaller := subject.sizeOf_value_lt
      omega
    · have smaller := Branch.sizeOf_lt_of_mem branches inBranches
      omega
  | letIn entries bodyComments body =>
    simp only [letIn.sizeOf_spec]
    rcases List.mem_append.mp member with inEntries | inBody
    · have smaller := LetEntry.sizeOf_lt_of_mem_flatMap entries inEntries
      omega
    · obtain rfl := List.mem_singleton.mp inBody
      omega
  | lambda arguments comments body multiline =>
    obtain rfl := List.mem_singleton.mp member
    simp only [lambda.sizeOf_spec]; omega
  | tuple elements multiline =>
    have smaller := Commented.sizeOf_lt_of_mem elements member
    simp only [tuple.sizeOf_spec]; omega
  | parens expression =>
    obtain rfl := List.mem_singleton.mp member
    have smaller := expression.sizeOf_value_lt
    simp only [parens.sizeOf_spec]; omega
  | record base fields trailing multiline =>
    have smaller := RecordPair.sizeOf_lt_of_mem fields member
    simp only [record.sizeOf_spec]; omega
  | access target field =>
    obtain rfl := List.mem_singleton.mp member
    simp only [access.sizeOf_spec]; omega
  | _ => simp [children] at member

end ExpressionNode

namespace Expression

/-- The direct sub-expressions of an expression, in source order. -/
def children (expression : Expression) : List Expression := expression.node.children

/-- A sub-expression is smaller than the expression. -/
theorem sizeOf_lt_of_mem_children {expression child : Expression}
    (member : child ∈ expression.children) : sizeOf child < sizeOf expression := by
  have smaller := ExpressionNode.sizeOf_lt_of_mem
    (show child ∈ expression.node.children from member)
  cases expression with
  | mk span node => simp only [mk.sizeOf_spec] at smaller ⊢; omega

/-- Computes a value from an expression: `f` at every node, from the leaves up. -/
def fold (f : Span → ExpressionNode β → β) (expression : Expression) : β :=
  f expression.span (expression.node.mapMem fun e _ => e.fold f)
termination_by sizeOf expression
decreasing_by
  rename_i member
  exact sizeOf_lt_of_mem_children member

/-- Folding is folding the children first. -/
theorem fold_eq (f : Span → ExpressionNode β → β) (expression : Expression) :
    expression.fold f = f expression.span (expression.node.map (fold f)) := by
  rw [fold]; rfl

/-- An expression and everything nested in it, parents first and siblings in source order. -/
def preorder (expression : Expression) : List Expression :=
  expression :: expression.children.attach.flatMap fun child => child.1.preorder
termination_by sizeOf expression
decreasing_by exact sizeOf_lt_of_mem_children child.2

/-- The expressions in an expression are itself and those in its children. -/
theorem preorder_eq (expression : Expression) :
    expression.preorder = expression :: expression.children.flatMap preorder := by
  rw [preorder]
  simp [List.flatMap_subtype]

end Expression

end Marginalia
