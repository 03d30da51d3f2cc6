import Marginalia.Proofs.Json.Pattern

/-!
# Expressions that can be told from how they are printed

The parts of expressions tell what they are made of if the expressions in them can be told, and so
do the nodes.
-/

namespace Marginalia

/-- Layouts are printed under different names. -/
theorem Layout.name_inj {first second : Layout} : first.name = second.name ↔ first = second := by
  cases first <;> cases second <;> simp [name]

namespace Json

variable {α ε : Type} {write : ε → Json}

/-! ## Names and layouts -/

/-- A reference can be told. -/
theorem faithful_reference (value : Reference) : Faithful reference value where
  exact := by cases value <;> simp [reference, (faithful_texts _).exact]
  eq_of_write other same := by
    cases value with
    | value name =>
      cases other with
      | value otherName =>
        obtain ⟨qualifier, name⟩ := name
        obtain ⟨otherQualifier, otherName⟩ := otherName
        simpa [reference, (faithful_texts _).write_eq_iff] using same
      | _ => simp [reference] at same
    | tag name =>
      cases other with
      | tag otherName =>
        obtain ⟨qualifier, name⟩ := name
        obtain ⟨otherQualifier, otherName⟩ := otherName
        simpa [reference, (faithful_texts _).write_eq_iff] using same
      | _ => simp [reference] at same
    | operator symbol =>
      cases other with
      | operator otherSymbol => simpa [reference] using same
      | _ => simp [reference] at same

/-- What a signature is about can be told. -/
theorem faithful_annotatedName (value : AnnotatedName) : Faithful annotatedName value where
  exact := by cases value <;> simp [annotatedName]
  eq_of_write other same := by cases value <;> cases other <;> simp_all [annotatedName]

/-- The layout of an application can be told. -/
theorem faithful_applicationLayout (value : ApplicationLayout) :
    Faithful applicationLayout value where
  exact := by cases value <;> simp [applicationLayout]
  eq_of_write other same := by
    cases value <;> cases other <;> simp_all [applicationLayout, Layout.name_inj]

/-! ## Parts of nodes -/

/-- A clause of a chain can be told, if its operand can. -/
theorem faithful_clause {value : Clause Reference ε} (operand : Faithful write value.expression) :
    Faithful (clause printed reference id ∘ Clause.map write) value where
  exact := by
    simp [clause, Clause.map, operand.exact, (faithful_span _).exact, (faithful_reference _).exact]
  eq_of_write other same := by
    obtain ⟨preOperator, ⟨span, operator⟩, preExpression, expression⟩ := value
    obtain ⟨otherPreOperator, ⟨otherSpan, otherOperator⟩, otherPreExpression, otherExpression⟩ :=
      other
    simpa [clause, Clause.map, operand.write_eq_iff, (faithful_span _).write_eq_iff,
      (faithful_reference _).write_eq_iff] using same

/-- Clauses of a chain can be told, if their operands can. -/
theorem faithful_clauses {clauses : List (Clause Reference ε)}
    (operands : ∀ operand ∈ clauses.map (·.expression), Faithful write operand) :
    Faithful (fun clauses => .array (clauses.map (clause printed reference id ∘ Clause.map write)))
      clauses :=
  .list fun _ member => faithful_clause (operands _ (List.mem_map_of_mem member))

/-- A condition and its body can be told, if both can. -/
theorem faithful_ifClause {value : IfClause ε}
    (children : ∀ child ∈ value.children, Faithful write child) :
    Faithful (ifClause ∘ IfClause.map write) value := by
  have condition := faithful_commented (children value.condition.value (.head _))
  have body := faithful_commented (children value.body.value (.tail _ (.head _)))
  constructor
  · simpa [ifClause, IfClause.map] using And.intro condition.exact body.exact
  · intro other same
    obtain ⟨_, _⟩ := value
    obtain ⟨_, _⟩ := other
    simpa [ifClause, IfClause.map, condition.write_eq_iff, body.write_eq_iff] using same

/-- Conditions and their bodies can be told, if all of them can. -/
theorem faithful_ifClauses {clauses : List (Commented (IfClause ε))}
    (children : ∀ child ∈ clauses.flatMap (·.value.children), Faithful write child) :
    Faithful (commentedList (ifClause ∘ IfClause.map write)) clauses := by
  refine faithful_commentedList fun clause member => faithful_ifClause fun child isChild => ?_
  exact children child (List.mem_flatMap.mpr ⟨clause, member, isChild⟩)

/-- A branch can be told, if its body can and there is no floating-point number in its pattern. -/
theorem faithful_branch {value : Branch ε} (noFloats : NoFloats value.pattern.literals)
    (body : Faithful write value.body) : Faithful (printed.branch ∘ Branch.map write) value := by
  have pattern := faithful_pattern noFloats
  constructor
  · simp [Style.branch, Branch.map, pattern.exact, body.exact]
  · intro other same
    obtain ⟨_, _, _, _, _⟩ := value
    obtain ⟨_, _, _, _, _⟩ := other
    simpa [Style.branch, Branch.map, pattern.write_eq_iff, body.write_eq_iff] using same

/-- Branches can be told, if their bodies can and there is no floating-point number in their
patterns. -/
theorem faithful_branches {branches : List (Located (Branch ε))}
    (noFloats : ∀ pattern ∈ branches.map (·.value.pattern), NoFloats pattern.literals)
    (bodies : ∀ body ∈ branches.map (·.value.body), Faithful write body) :
    Faithful (fun branches =>
      .array (branches.map (printed.located (printed.branch ∘ Branch.map write)))) branches := by
  refine .list fun branch member => faithful_located (faithful_branch ?_ ?_)
  · exact noFloats _ (List.mem_map.mpr ⟨branch, member, rfl⟩)
  · exact bodies _ (List.mem_map.mpr ⟨branch, member, rfl⟩)

/-- A field of a record can be told, if its value can. -/
theorem faithful_recordPair {pair : RecordPair ε} (value : Faithful write pair.value.value) :
    Faithful (recordPair ∘ RecordPair.map write) pair where
  exact := by simp [recordPair, RecordPair.map, value.exact]
  eq_of_write other same := by
    obtain ⟨key, value, multiline⟩ := pair
    obtain ⟨otherKey, otherValue, otherMultiline⟩ := other
    simpa [recordPair, RecordPair.map, (faithful_commentedText _).write_eq_iff,
      (faithful_commented value).write_eq_iff] using same

/-- Fields of a record can be told, if their values can. -/
theorem faithful_recordPairs {pairs : List (Commented (RecordPair ε))}
    (values : ∀ value ∈ pairs.map (·.value.value.value), Faithful write value) :
    Faithful (commentedList (recordPair ∘ RecordPair.map write)) pairs :=
  faithful_commentedList fun _ member => faithful_recordPair (values _ (List.mem_map_of_mem member))

/-- A signature can be told. -/
theorem faithful_signature (value : Signature) : Faithful printed.signature value := by
  have name := faithful_commented (faithful_annotatedName value.name.value)
  have type := faithful_commented (faithful_typeExpression value.type.value)
  constructor
  · simpa [Style.signature] using And.intro name.exact type.exact
  · intro other same
    obtain ⟨_, _⟩ := value
    obtain ⟨_, _⟩ := other
    simpa [Style.signature, name.write_eq_iff, type.write_eq_iff] using same

/-- Patterns between their comments can be told, if there is no floating-point number in them. -/
theorem faithful_patterns {values : List (Commented Pattern)}
    (noFloats : ∀ pattern ∈ values.map (·.value), NoFloats pattern.literals) :
    Faithful (commentedList printed.pattern) values :=
  faithful_commentedList fun _ member => faithful_pattern (noFloats _ (List.mem_map_of_mem member))

/-- A declaration can be told, if its body can and there is no floating-point number in its
patterns. -/
theorem faithful_declaration {value : Declaration ε}
    (noFloats : ∀ pattern ∈ value.patterns, NoFloats pattern.literals)
    (bodies : ∀ body ∈ value.bodies, Faithful write body) :
    Faithful (printed.declaration ∘ Declaration.map write) value := by
  cases value with
  | definition value =>
    have pattern := faithful_pattern (noFloats value.pattern (.head _))
    have arguments := faithful_patterns (List.forall_mem_cons.mp noFloats).2
    have body := bodies value.body (.head _)
    constructor
    · simpa [Style.declaration, Style.definition, Declaration.map_eq, Definition.map, pattern.exact,
        body.exact] using arguments.exact
    · intro other same
      cases other with
      | definition other =>
        obtain ⟨_, _, _, _⟩ := value
        obtain ⟨_, _, _, _⟩ := other
        simpa [Style.declaration, Style.definition, Declaration.map_eq, Definition.map,
          pattern.write_eq_iff, arguments.write_eq_iff, body.write_eq_iff] using same
      | signature =>
        simp [Style.declaration, Style.definition, Style.signature, Declaration.map_eq] at same
  | signature value =>
    have inside := faithful_signature value
    constructor
    · exact inside.exact
    · intro other same
      cases other with
      | definition =>
        simp [Style.declaration, Style.definition, Style.signature, Declaration.map_eq] at same
      | signature other => rw [inside.eq_of_write other same]

/-- An entry of a `let` can be told, if its body can and there is no floating-point number in its
patterns. -/
theorem faithful_letEntry {value : LetEntry ε}
    (noFloats : ∀ pattern ∈ value.patterns, NoFloats pattern.literals)
    (bodies : ∀ body ∈ value.bodies, Faithful write body) :
    Faithful (printed.letEntry ∘ LetEntry.map write) value := by
  cases value with
  | declaration value =>
    have inside := faithful_located (faithful_declaration noFloats bodies)
    constructor
    · simpa [Style.letEntry, LetEntry.map] using inside.exact
    · intro other same
      cases other with
      | declaration other => simpa [Style.letEntry, LetEntry.map, inside.write_eq_iff] using same
      | comment => simp [Style.letEntry, LetEntry.map] at same
  | comment value =>
    have inside := faithful_comment value
    constructor
    · simpa [Style.letEntry, LetEntry.map] using inside.exact
    · intro other same
      cases other with
      | declaration => simp [Style.letEntry, LetEntry.map] at same
      | comment other => simpa [Style.letEntry, LetEntry.map, inside.write_eq_iff] using same

/-- Entries of a `let` can be told, if their bodies can and there is no floating-point number in
their patterns. -/
theorem faithful_letEntries {entries : List (Located (LetEntry ε))}
    (noFloats : ∀ pattern ∈ entries.flatMap (·.value.patterns), NoFloats pattern.literals)
    (bodies : ∀ body ∈ entries.flatMap (·.value.bodies), Faithful write body) :
    Faithful (fun entries => .array
      (entries.map (printed.located (printed.letEntry ∘ LetEntry.map write)))) entries := by
  refine .list fun entry member =>
    faithful_located (faithful_letEntry (fun pattern inside => ?_) fun body inside => ?_)
  · exact noFloats pattern (List.mem_flatMap.mpr ⟨entry, member, inside⟩)
  · exact bodies body (List.mem_flatMap.mpr ⟨entry, member, inside⟩)

/-! ## Nodes -/

/-- Nodes of expressions that are printed alike are of one form. -/
theorem ctorIdx_eq_of_expressionNode {node other : ExpressionNode ε}
    (same : printed.expressionNode (other.map write) = printed.expressionNode (node.map write)) :
    other.ctorIdx = node.ctorIdx := by
  rw [ExpressionNode.map_eq, ExpressionNode.map_eq] at same
  -- a chain writes its kind apart from the other forms
  cases node <;> cases other <;>
    first | rfl | simp [Style.expressionNode, ExpressionNode.kind, chain] at same

/-- A node of an expression can be told, if it can be told among those of its form. -/
theorem faithful_of_form {node : ExpressionNode ε}
    (exact : (printed.expressionNode (node.map write)).Exact)
    (tells : ∀ other : ExpressionNode ε, other.ctorIdx = node.ctorIdx → printed.expressionNode
      (other.map write) = printed.expressionNode (node.map write) → other = node) :
    Faithful (printed.expressionNode ∘ ExpressionNode.map write) node where
  exact := exact
  eq_of_write other same := tells other (ctorIdx_eq_of_expressionNode same) same

/-- A node of an expression can be told, if its children can and it holds no floating-point number
itself. -/
theorem faithful_expressionNode {node : ExpressionNode ε} (noFloats : NoFloats node.ownLiterals)
    (children : ∀ child ∈ node.children, Faithful write child) :
    Faithful (printed.expressionNode ∘ ExpressionNode.map write) node := by
  cases node with
  | literal value =>
    have inner := faithful_literal (noFloats value (.head _))
    refine faithful_of_form ?_ fun other sameForm same => ?_
    · simp [Style.expressionNode, ExpressionNode.kind, ExpressionNode.map_eq, inner.exact]
    · cases other <;> cases sameForm
      simpa [Style.expressionNode, ExpressionNode.kind, ExpressionNode.map_eq,
        inner.write_eq_iff] using same
  | reference name =>
    have inner := faithful_reference name
    refine faithful_of_form ?_ fun other sameForm same => ?_
    · simp [Style.expressionNode, ExpressionNode.kind, ExpressionNode.map_eq, inner.exact]
    · cases other <;> cases sameForm
      simpa [Style.expressionNode, ExpressionNode.kind, ExpressionNode.map_eq,
        inner.write_eq_iff] using same
  | negation operand =>
    have inner := children operand (.head _)
    refine faithful_of_form ?_ fun other sameForm same => ?_
    · simp [Style.expressionNode, ExpressionNode.kind, ExpressionNode.map_eq, inner.exact]
    · cases other <;> cases sameForm
      simpa [Style.expressionNode, ExpressionNode.kind, ExpressionNode.map_eq,
        inner.write_eq_iff] using same
  | range low high multiline =>
    have inLow := faithful_commented (children low.value (.head _))
    have inHigh := faithful_commented (children high.value (.tail _ (.head _)))
    refine faithful_of_form ?_ fun other sameForm same => ?_
    · simp [Style.expressionNode, ExpressionNode.kind, ExpressionNode.map_eq,
        inLow.exact, inHigh.exact]
    · cases other <;> cases sameForm
      simpa [Style.expressionNode, ExpressionNode.kind, ExpressionNode.map_eq, inLow.write_eq_iff,
        inHigh.write_eq_iff] using same
  | list terms trailing multiline =>
    have inner := faithful_children children terms (List.Subset.refl _)
    refine faithful_of_form ?_ fun other sameForm same => ?_
    · simp [Style.expressionNode, ExpressionNode.kind, ExpressionNode.map_eq, inner.exact]
    · cases other <;> cases sameForm
      simpa [Style.expressionNode, ExpressionNode.kind, ExpressionNode.map_eq,
        inner.write_eq_iff] using same
  | application head arguments layout =>
    have inHead := children head (.head _)
    have inArguments := faithful_children children arguments (List.subset_cons_self _ _)
    have inLayout := faithful_applicationLayout layout
    refine faithful_of_form ?_ fun other sameForm same => ?_
    · simp [Style.expressionNode, ExpressionNode.kind, ExpressionNode.map_eq, inHead.exact,
        inArguments.exact, inLayout.exact]
    · cases other <;> cases sameForm
      simpa [Style.expressionNode, ExpressionNode.kind, ExpressionNode.map_eq, inHead.write_eq_iff,
        inArguments.write_eq_iff, inLayout.write_eq_iff] using same
  | chain left clauses layout =>
    have inLeft := children left (.head _)
    have inClauses := faithful_clauses fun operand inside => children operand (.tail _ inside)
    refine faithful_of_form ?_ fun other sameForm same => ?_
    · simp [Style.expressionNode, ExpressionNode.map_eq, Json.chain, inLeft.exact, inClauses.exact]
    · cases other <;> cases sameForm
      simpa [Style.expressionNode, ExpressionNode.map_eq, Json.chain, Layout.name_inj,
        inLeft.write_eq_iff, inClauses.write_eq_iff] using same
  | conditional first rest final =>
    have inFirst : Faithful (fun clause => ifClause (clause.map write)) first :=
      faithful_ifClause fun child inside => children child (List.mem_append_left _ inside)
    have inRest :=
      faithful_ifClauses fun child inside =>
        children child (List.mem_append_right _ (List.mem_append_left _ inside))
    have inFinal := faithful_commented
      (children final.value (List.mem_append_right _ (List.mem_append_right _ (.head _))))
    refine faithful_of_form ?_ fun other sameForm same => ?_
    · simp [Style.expressionNode, ExpressionNode.kind, ExpressionNode.map_eq, inFirst.exact,
        inRest.exact, inFinal.exact]
    · cases other <;> cases sameForm
      simpa [Style.expressionNode, ExpressionNode.kind, ExpressionNode.map_eq, inFirst.write_eq_iff,
        inRest.write_eq_iff, inFinal.write_eq_iff] using same
  | caseOf subject multilineSubject branches =>
    have inSubject := faithful_commented (children subject.value (.head _))
    have inBranches :=
      faithful_branches (noFloats_flatMap.mp noFloats) fun body inside =>
        children body (.tail _ inside)
    refine faithful_of_form ?_ fun other sameForm same => ?_
    · simp [Style.expressionNode, ExpressionNode.kind, ExpressionNode.map_eq, inSubject.exact,
        inBranches.exact]
    · cases other <;> cases sameForm
      simpa [Style.expressionNode, ExpressionNode.kind, ExpressionNode.map_eq,
        inSubject.write_eq_iff, inBranches.write_eq_iff] using same
  | letIn entries bodyComments body =>
    have inEntries :=
      faithful_letEntries (noFloats_flatMap.mp noFloats) fun body inside =>
        children body (List.mem_append_left _ inside)
    have inBody := children body (List.mem_append_right _ (.head _))
    refine faithful_of_form ?_ fun other sameForm same => ?_
    · simp [Style.expressionNode, ExpressionNode.kind, ExpressionNode.map_eq,
        inEntries.exact, inBody.exact]
    · cases other <;> cases sameForm
      simpa [Style.expressionNode, ExpressionNode.kind, ExpressionNode.map_eq,
        inEntries.write_eq_iff, inBody.write_eq_iff] using same
  | lambda arguments comments body multiline =>
    have inArguments := faithful_patterns (noFloats_flatMap.mp noFloats)
    have inBody := children body (.head _)
    refine faithful_of_form ?_ fun other sameForm same => ?_
    · simp [Style.expressionNode, ExpressionNode.kind, ExpressionNode.map_eq,
        inArguments.exact, inBody.exact]
    · cases other <;> cases sameForm
      simpa [Style.expressionNode, ExpressionNode.kind, ExpressionNode.map_eq,
        inArguments.write_eq_iff, inBody.write_eq_iff] using same
  | tuple elements multiline =>
    have inner := faithful_children children elements (List.Subset.refl _)
    refine faithful_of_form ?_ fun other sameForm same => ?_
    · simp [Style.expressionNode, ExpressionNode.kind, ExpressionNode.map_eq, inner.exact]
    · cases other <;> cases sameForm
      simpa [Style.expressionNode, ExpressionNode.kind, ExpressionNode.map_eq,
        inner.write_eq_iff] using same
  | parens expression =>
    have inner := faithful_commented (children expression.value (.head _))
    refine faithful_of_form ?_ fun other sameForm same => ?_
    · simp [Style.expressionNode, ExpressionNode.kind, ExpressionNode.map_eq, inner.exact]
    · cases other <;> cases sameForm
      simpa [Style.expressionNode, ExpressionNode.kind, ExpressionNode.map_eq,
        inner.write_eq_iff] using same
  | unit comments =>
    refine faithful_of_form ?_ fun other sameForm same => ?_
    · simp [Style.expressionNode, ExpressionNode.kind, ExpressionNode.map_eq]
    · cases other <;> cases sameForm
      simpa [Style.expressionNode, ExpressionNode.kind, ExpressionNode.map_eq] using same
  | record base members trailing multiline =>
    have inBase := faithful_optionalText base
    have inMembers := faithful_recordPairs children
    refine faithful_of_form ?_ fun other sameForm same => ?_
    · simp [Style.expressionNode, ExpressionNode.kind, ExpressionNode.map_eq, inBase.exact,
        inMembers.exact]
    · cases other <;> cases sameForm
      simpa [Style.expressionNode, ExpressionNode.kind, ExpressionNode.map_eq, inBase.write_eq_iff,
        inMembers.write_eq_iff] using same
  | access target field =>
    have inner := children target (.head _)
    refine faithful_of_form ?_ fun other sameForm same => ?_
    · simp [Style.expressionNode, ExpressionNode.kind, ExpressionNode.map_eq, inner.exact]
    · cases other <;> cases sameForm
      simpa [Style.expressionNode, ExpressionNode.kind, ExpressionNode.map_eq,
        inner.write_eq_iff] using same
  | accessor field =>
    refine faithful_of_form ?_ fun other sameForm same => ?_
    · simp [Style.expressionNode, ExpressionNode.kind, ExpressionNode.map_eq]
    · cases other <;> cases sameForm
      simpa [Style.expressionNode, ExpressionNode.kind, ExpressionNode.map_eq] using same
  | tupleFunction arity =>
    refine faithful_of_form ?_ fun other sameForm same => ?_
    · simp [Style.expressionNode, ExpressionNode.kind, ExpressionNode.map_eq]
    · cases other <;> cases sameForm
      simpa [Style.expressionNode, ExpressionNode.kind, ExpressionNode.map_eq] using same
  | shader source =>
    refine faithful_of_form ?_ fun other sameForm same => ?_
    · simp [Style.expressionNode, ExpressionNode.kind, ExpressionNode.map_eq]
    · cases other <;> cases sameForm
      simpa [Style.expressionNode, ExpressionNode.kind, ExpressionNode.map_eq] using same

/-- An expression is printed with its span around its node. -/
theorem expression_eq (value : Expression) :
    printed.expression value = printed.spanned value.span
      ((printed.expressionNode ∘ ExpressionNode.map printed.expression) value.node) := by
  rw [Style.expression, Expression.fold_eq]
  rfl

/-- An expression can be told, if there is no floating-point number in it. -/
theorem faithful_expression {value : Expression} (noFloats : NoFloats value.literals) :
    Faithful printed.expression value := by
  induction value using Expression.induction with
  | _ span node ih =>
    rw [Expression.literals_mk, noFloats_append, noFloats_flatMap] at noFloats
    have inNode := faithful_expressionNode noFloats.1 fun child isChild =>
      ih child isChild (noFloats.2 child isChild)
    refine .of_spanned expression_eq (fun other sameSpan sameNode => ?_) inNode
    obtain ⟨_, _⟩ := other
    rw [Expression.mk.injEq]
    exact ⟨sameSpan, sameNode⟩

end Json

end Marginalia
