import Marginalia.Syntax.Module

/-!
# Changing the children of a node

The change of all children, which the nodes of a tree define together with the membership of each
child, is here one equation for each form of node, without the membership. What is computed by
folding a tree can then be read off from these.
-/

namespace Marginalia

variable {α β ω π τ ε : Type}

/-! ## Parts of nodes -/

/-- Changes the type of a field. -/
def RecordTypeField.map (f : τ → β) (field : RecordTypeField τ) : RecordTypeField β :=
  ⟨field.name, field.type.map f⟩

/-- Without use of the membership, changing the types of all fields is mapping. -/
theorem RecordTypeField.mapMem_eq_map (fields : List (Commented (RecordTypeField τ))) (f : τ → β) :
    mapMem fields (fun t _ => f t) = fields.map (Commented.map (map f)) := by
  simp [mapMem, map, Commented.map]

/-- Changes the operand of a clause. -/
def Clause.map (f : ε → β) (clause : Clause ω ε) : Clause ω β :=
  ⟨clause.preOperator, clause.operator, clause.preExpression, f clause.expression⟩

/-- Without use of the membership, changing the operands of all clauses is mapping. -/
theorem Clause.mapMem_eq_map (clauses : List (Clause ω ε)) (f : ε → β) :
    mapMem clauses (fun e _ => f e) = clauses.map (map f) := by
  simp [mapMem, map]

/-- Changes condition and body of a clause. -/
def IfClause.map (f : ε → β) (clause : IfClause ε) : IfClause β :=
  ⟨clause.condition.map f, clause.body.map f⟩

/-- Without use of the membership, changing all conditions and bodies is mapping. -/
theorem IfClause.mapAllMem_eq_map (clauses : List (Commented (IfClause ε))) (f : ε → β) :
    mapAllMem clauses (fun e _ => f e) = clauses.map (Commented.map (map f)) := by
  simp [mapAllMem, mapMem, map, Commented.map]

/-- Changes the body of a branch. -/
def Branch.map (f : ε → β) (branch : Branch ε) : Branch β :=
  ⟨branch.beforePattern, branch.pattern, branch.beforeArrow, branch.afterArrow, f branch.body⟩

/-- Without use of the membership, changing the bodies of all branches is mapping. -/
theorem Branch.mapMem_eq_map (branches : List (Located (Branch ε))) (f : ε → β) :
    mapMem branches (fun e _ => f e) = branches.map (Located.map (map f)) := by
  simp [mapMem, map, Located.map]

/-- Changes the value of a field. -/
def RecordPair.map (f : ε → β) (pair : RecordPair ε) : RecordPair β :=
  ⟨pair.key, pair.value.map f, pair.multiline⟩

/-- Without use of the membership, changing the values of all fields is mapping. -/
theorem RecordPair.mapMem_eq_map (fields : List (Commented (RecordPair ε))) (f : ε → β) :
    mapMem fields (fun e _ => f e) = fields.map (Commented.map (map f)) := by
  simp [mapMem, map, Commented.map]

/-- Changes the body of a definition. -/
def Definition.map (f : ε → β) (definition : Definition ε) : Definition β :=
  ⟨definition.pattern, definition.arguments, definition.comments, f definition.body⟩

/-- Changing the body of a declaration, form by form. -/
theorem Declaration.map_eq (f : ε → β) (d : Declaration ε) :
    d.map f =
      match d with
      | definition d => definition (d.map f)
      | signature s => signature s := by
  cases d <;> rfl

/-- Changes the body of an entry of a `let`. -/
def LetEntry.map (f : ε → β) : LetEntry ε → LetEntry β
  | declaration d => declaration (d.map (Declaration.map f))
  | comment c => comment c

/-- Without use of the membership, changing an entry is mapping. -/
theorem LetEntry.mapMem_eq_map (entry : LetEntry ε) (f : ε → β) :
    entry.mapMem (fun e _ => f e) = entry.map f := by
  cases entry <;> rfl

/-- Without use of the membership, changing all entries is mapping. -/
theorem LetEntry.mapAllMem_eq_map (entries : List (Located (LetEntry ε))) (f : ε → β) :
    mapAllMem entries (fun e _ => f e) = entries.map (Located.map (map f)) := by
  simp [mapAllMem, mapMem_eq_map, Located.map]

/-! ## Nodes -/

/-- Changing the children of a pattern's node, form by form. -/
theorem PatternNode.map_eq (f : π → β) (node : PatternNode π) :
    node.map f =
      match node with
      | anything => anything
      | unit comments => unit comments
      | literal l => literal l
      | name n => name n
      | operator symbol => operator symbol
      | data tag arguments => data tag (arguments.map (Commented.map f))
      | parens pattern => parens (pattern.map f)
      | tuple elements => tuple (elements.map (Commented.map f))
      | emptyList comments => emptyList comments
      | list elements => list (elements.map (Commented.map f))
      | cons first rest => cons (first.map f) (rest.map (Commented.map f))
      | record fields => record fields
      | named pattern n => named (pattern.map f) n := by
  cases node with
  | data tag arguments => exact congrArg (data tag) (Commented.mapMem_eq_map arguments f)
  | tuple elements => exact congrArg tuple (Commented.mapMem_eq_map elements f)
  | list elements => exact congrArg list (Commented.mapMem_eq_map elements f)
  | cons first rest => exact congrArg (cons (first.map f)) (Commented.mapMem_eq_map rest f)
  | _ => rfl

/-- Changing the children of a type's node, form by form. -/
theorem TypeNode.map_eq (f : τ → β) (node : TypeNode τ) :
    node.map f =
      match node with
      | unit comments => unit comments
      | name n => name n
      | construction tag arguments => construction tag (arguments.map (Commented.map f))
      | parens type => parens (type.map f)
      | tuple elements => tuple (elements.map (Commented.map f))
      | record base fields trailing multiline =>
        record base (fields.map (Commented.map (RecordTypeField.map f))) trailing multiline
      | function first rest multiline =>
        function (first.map f) (rest.map (Commented.map f)) multiline := by
  cases node with
  | construction tag arguments =>
    exact congrArg (construction tag) (Commented.mapMem_eq_map arguments f)
  | tuple elements => exact congrArg tuple (Commented.mapMem_eq_map elements f)
  | record base fields trailing multiline =>
    exact congrArg (record base · trailing multiline) (RecordTypeField.mapMem_eq_map fields f)
  | function first rest multiline =>
    exact congrArg (function (first.map f) · multiline) (Commented.mapMem_eq_map rest f)
  | _ => rfl

/-- Changing the children of an expression's node, form by form. -/
theorem ExpressionNode.map_eq (f : ε → β) (node : ExpressionNode ε) :
    node.map f =
      match node with
      | literal l => literal l
      | reference r => reference r
      | negation operand => negation (f operand)
      | range low high multiline => range (low.map f) (high.map f) multiline
      | list terms trailing multiline => list (terms.map (Commented.map f)) trailing multiline
      | application head arguments layout =>
        application (f head) (arguments.map (Commented.map f)) layout
      | chain left clauses layout => chain (f left) (clauses.map (Clause.map f)) layout
      | conditional first rest final =>
        conditional (first.map f) (rest.map (Commented.map (IfClause.map f))) (final.map f)
      | caseOf subject multilineSubject branches =>
        caseOf (subject.map f) multilineSubject (branches.map (Located.map (Branch.map f)))
      | letIn entries bodyComments body =>
        letIn (entries.map (Located.map (LetEntry.map f))) bodyComments (f body)
      | lambda arguments comments body multiline => lambda arguments comments (f body) multiline
      | tuple elements multiline => tuple (elements.map (Commented.map f)) multiline
      | parens expression => parens (expression.map f)
      | unit comments => unit comments
      | record base fields trailing multiline =>
        record base (fields.map (Commented.map (RecordPair.map f))) trailing multiline
      | access target field => access (f target) field
      | accessor field => accessor field
      | tupleFunction arity => tupleFunction arity
      | shader source => shader source := by
  cases node with
  | list terms trailing multiline =>
    exact congrArg (list · trailing multiline) (Commented.mapMem_eq_map terms f)
  | application head arguments layout =>
    exact congrArg (application (f head) · layout) (Commented.mapMem_eq_map arguments f)
  | chain left clauses layout =>
    exact congrArg (chain (f left) · layout) (Clause.mapMem_eq_map clauses f)
  | conditional first rest final =>
    exact congrArg (conditional (first.map f) · (final.map f)) (IfClause.mapAllMem_eq_map rest f)
  | caseOf subject multilineSubject branches =>
    exact congrArg (caseOf (subject.map f) multilineSubject) (Branch.mapMem_eq_map branches f)
  | letIn entries bodyComments body =>
    exact congrArg (letIn · bodyComments (f body)) (LetEntry.mapAllMem_eq_map entries f)
  | tuple elements multiline =>
    exact congrArg (tuple · multiline) (Commented.mapMem_eq_map elements f)
  | record base fields trailing multiline =>
    exact congrArg (record base · trailing multiline) (RecordPair.mapMem_eq_map fields f)
  | _ => rfl

end Marginalia
