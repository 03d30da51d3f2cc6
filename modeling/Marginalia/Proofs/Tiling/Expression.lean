import Marginalia.Grammar.Expression
import Marginalia.Proofs.Tiling.Pattern

/-!
# Laying out expressions

Every rule of the grammar of expressions lays out the tree that it makes, if the rules inside it do.
Most nodes have the span of the run that reads them. A node of a field stands around the record that
it is read from, and a branch begins with its pattern, whatever was read before that.
-/

namespace Marginalia.Grammar

open Marginalia.Parser

variable {input : Input} {origin : Cursor} (scanned : input.Scanned)

include scanned

/-- A located node is laid out as an expression. -/
theorem expressionOf_solid {node : Parser (ExpressionNode Expression)}
    (solid : Solid input node (·.outlines Expression.outlines)) :
    Solid input (expressionOf node) Expression.outlines := by
  intro origin
  have located : Solid input (located node) fun found =>
      [.part found.span (found.value.outlines Expression.outlines)] :=
    .located scanned solid fun value found stop same span =>
      congrArg (fun inside => [Outline.part span inside]) same
  apply Lays.bind (located origin)
  intro found
  exact .pure fun _ => by simp [outlined]

/-! ## Terms -/

/-- A literal is laid out as an expression. -/
theorem literalTerm_solid : Solid input literalTerm Expression.outlines := by
  apply expressionOf_solid scanned
  intro origin
  apply Lays.bind (literal_solid scanned origin)
  intro literal
  exact .pure fun _ => by simp [outlined, ExpressionNode.outlines]

omit scanned in
/-- Nothing lies inside a name. -/
theorem referenceNode_outlines (reference : Reference) :
    (referenceNode reference).outlines Expression.outlines = [] := by
  unfold referenceNode
  split
  · rfl
  · split
    · rfl
    · rfl

/-- A name is laid out as an expression. -/
theorem nameTerm_solid : Solid input nameTerm Expression.outlines := by
  apply expressionOf_solid scanned
  intro origin
  apply Lays.bind (nameReference_solid scanned origin)
  intro reference
  exact .pure fun _ => referenceNode_outlines reference

/-- The function that reads a field is laid out as an expression. -/
theorem accessorTerm_solid : Solid input accessorTerm Expression.outlines := by
  intro origin
  apply Lays.attempt
  apply expressionOf_solid scanned
  intro origin
  apply Lays.bind (token_lays scanned (by decide) _)
  intro _
  apply Lays.bind ((lowerName_solid scanned).lays _)
  intro field
  exact .pure fun _ => by simp [outlined, ExpressionNode.outlines]

/-- A block of shader source is laid out as an expression. -/
theorem shaderTerm_solid : Solid input shaderTerm Expression.outlines := by
  apply expressionOf_solid scanned
  intro origin
  apply Lays.bind (token_lays scanned (by decide) _)
  intro _
  exact .pure fun _ => by simp [outlined, ExpressionNode.outlines]

/-- An operator in parentheses is laid out as an expression. -/
theorem operatorTerm_solid : Solid input operatorTerm Expression.outlines := by
  intro origin
  apply Lays.attempt
  apply expressionOf_solid scanned
  intro origin
  apply Lays.bind (parenthesizedOperator_solid scanned origin)
  intro symbol
  exact .pure fun _ => by simp [outlined, ExpressionNode.outlines]

/-- Commas in parentheses are laid out as an expression. -/
theorem tupleFunctionTerm_solid : Solid input tupleFunctionTerm Expression.outlines := by
  intro origin
  apply Lays.attempt
  apply expressionOf_solid scanned
  intro origin
  have comma : Lays input origin [] .ended .ended (token .comma "','") (outlined fun _ => []) :=
    token_lays scanned (by decide) _
  apply Lays.bind (token_lays scanned (by decide) _)
  intro _
  apply Lays.bind comma
  intro _
  apply Lays.bind comma.many
  intro further
  apply Lays.bind (token_lays scanned (by decide) _)
  intro _
  exact .pure fun _ => by simp [outlined, ExpressionNode.outlines]

/-- A field lays out nothing, and the place behind it is told. -/
theorem fieldAccess_lays :
    Lays input origin [] .ended .ended fieldAccess fun access found stop => [] = found ∧
    access.2 = stop.position := by
  apply Lays.bind (dottedLowerName_lays scanned)
  intro field
  exact .closing fun _ => ⟨rfl, rfl⟩

/-- Fields that are read from an expression, one after the other, lie around it each. -/
theorem accesses_row (place : input.At origin) (bound : Nat) (start : Cursor)
    (startPlace : input.At start)
    (holds : Stage.ended.Holds input origin start) (record : Expression)
    (row : Row input.tokens.toList origin.position.offset record.outlines start.position.offset)
    (fields : List (Text × Position)) (stop : Cursor)
    (run : valuesUpTo (some <$> fieldAccess) bound input start = .done fields stop) :
    (input.At stop ∧ Stage.ended.Holds input origin stop ∧ start.index ≤ stop.index) ∧
    Row input.tokens.toList origin.position.offset (fields.foldl (fun record (field, stop) =>
      (⟨⟨origin.position, stop⟩, .access record field⟩ : Expression)) record).outlines
      stop.position.offset := by
  induction bound generalizing start record fields with
  | zero => cases run
  | succ bound ih =>
    rcases valuesUpTo_some_done run with ⟨rfl, rfl⟩ | ⟨⟨field, behind⟩, between, runField, ends⟩
    · exact ⟨⟨startPlace, holds, Nat.le_refl _⟩, row⟩
    · obtain ⟨⟨place', holds', le⟩, more, further, nothing, told⟩ :=
        fieldAccess_lays scanned start startPlace holds (field, behind) between runField
      have longer := row.widen (Nat.le_refl _) further.le
      have around : Row input.tokens.toList origin.position.offset (Expression.outlines
            ⟨⟨origin.position, behind⟩, .access record field⟩) between.position.offset := by
        rw [Expression.outlines_mk, show behind = between.position from told]
        exact longer.around scanned place place' holds'.1 holds'.2
      rcases ends with ⟨rfl, rfl⟩ | ⟨rest, rfl, runRest⟩
      · exact ⟨⟨place', holds', le⟩, around⟩
      · obtain ⟨⟨place'', holds'', le'⟩, last⟩ := ih between place' holds' _ around rest runRest
        exact ⟨⟨place'', holds'', Nat.le_trans le le'⟩, last⟩

/-- A term and the fields that are read from it are laid out as an expression. -/
theorem accessible_solid {target : Parser Expression}
    (solid : Solid input target Expression.outlines) :
    Solid input (accessible target) Expression.outlines := by
  refine .of_runs fun start place value stop run => ?_
  obtain ⟨_, _, told, run⟩ := bind_done.mp run
  obtain ⟨rfl, rfl⟩ := Outcome.done.inj told
  obtain ⟨record, between, runTarget, run⟩ := bind_done.mp run
  obtain ⟨fields, _, runFields, made⟩ := bind_done.mp run
  obtain ⟨rfl, rfl⟩ := Outcome.done.inj made
  obtain ⟨⟨place', holds, le⟩, more, row, same⟩ :=
    solid start start place ⟨rfl, rfl⟩ record between runTarget
  have outlines : record.outlines = more := same
  rw [← outlines] at row
  obtain ⟨⟨place'', holds', le'⟩, around⟩ :=
    accesses_row scanned place input.repetitionLimit between place' holds record row
      fields _ runFields
  exact ⟨⟨place'', holds', Nat.le_trans le le'⟩, around⟩

section Over

variable {expression term : Parser Expression} (solid : Solid input expression Expression.outlines)

include solid

/-- A minus sign and a term are laid out as an expression. -/
theorem negationTerm_solid : Solid input (negationTerm expression) Expression.outlines := by
  intro origin
  apply Lays.attempt
  apply expressionOf_solid scanned
  intro origin
  apply Lays.bind (operator_lays scanned "-")
  intro _
  apply Lays.bind (solid.lays _)
  intro operand
  exact .pure fun _ => by simp [outlined, ExpressionNode.outlines]

/-- Two bounds in square brackets are laid out as an expression. -/
theorem rangeTerm_solid : Solid input (rangeTerm expression) Expression.outlines := by
  apply expressionOf_solid scanned
  intro origin
  have inner : Lays input origin [] .fresh .ended
      (do
        let _ ← token .leftBracket "'['"
        let low ← padded expression
        let _ ← token .range "'..'"
        let high ← padded expression
        let _ ← token .rightBracket "']'"
        return (low, high))
      (outlined fun bounds => bounds.1.value.outlines ++ bounds.2.value.outlines) := by
    apply Lays.bind (token_lays scanned (by decide) _)
    intro _
    apply Lays.bind (Lays.padded scanned (solid.lays _))
    intro low
    apply Lays.bind (token_lays scanned (by decide) _)
    intro _
    apply Lays.bind (Lays.padded scanned (solid.lays _))
    intro high
    apply Lays.bind (token_lays scanned (by decide) _)
    intro _
    exact .pure fun _ => by simp [outlined]
  apply Lays.bind inner.trackNewline
  rintro ⟨⟨low, high⟩, crossed⟩
  exact .pure fun _ => by simp [outlined, ExpressionNode.outlines]

/-- Expressions in square brackets are laid out as an expression. -/
theorem listTerm_solid : Solid input (listTerm expression) Expression.outlines := by
  apply expressionOf_solid scanned
  intro origin
  apply Lays.bind (group_solid scanned solid (by decide) _ (by decide) origin)
  rintro ⟨contents, crossed⟩
  exact .pure fun _ => by simp [outlined, ExpressionNode.outlines]

/-- What begins with a square bracket is laid out as an expression. -/
theorem bracketTerm_solid : Solid input (bracketTerm expression) Expression.outlines := by
  intro origin
  apply Lays.choiceAfter
  simp only [List.forall_mem_cons, List.not_mem_nil, false_imp_iff, implies_true, and_true]
  exact ⟨shaderTerm_solid scanned origin, (rangeTerm_solid scanned solid origin).attempt,
    listTerm_solid scanned solid origin⟩

/-- Expressions in parentheses are laid out as an expression. -/
theorem tupleTerm_solid : Solid input (tupleTerm expression) Expression.outlines := by
  apply expressionOf_solid scanned
  intro origin
  apply Lays.bind (group_solid scanned solid (by decide) _ (by decide) origin)
  rintro ⟨⟨elements, trailing⟩, crossed⟩
  match elements with
  | [] => exact .pure fun _ => by simp [outlined, ExpressionNode.outlines]
  | [only] => exact .pure fun _ => by simp [outlined, ExpressionNode.outlines]
  | first :: second :: rest => exact .pure fun _ => by simp [outlined, ExpressionNode.outlines]

/-- What begins with a parenthesis is laid out as an expression. -/
theorem parensTerm_solid : Solid input (parensTerm expression) Expression.outlines := by
  intro origin
  apply Lays.choiceAfter
  simp only [List.forall_mem_cons, List.not_mem_nil, false_imp_iff, implies_true, and_true]
  exact ⟨operatorTerm_solid scanned origin, tupleFunctionTerm_solid scanned origin,
    tupleTerm_solid scanned solid origin⟩

/-- A field and its value are laid out as the value. -/
theorem recordPair_solid : Solid input (recordPair expression) (·.value.value.outlines) := by
  intro origin
  apply Lays.bind (lowerName_solid scanned origin)
  intro key
  have sign : Lays input origin [] .ended .begun
      (do
        let before ← whitespace
        let _ ← satisfy (fun token => token.kind == .equals || token.kind == .colon) "'='"
        return (before, ← whitespace))
      (outlined fun _ => []) := by
    apply Lays.bind (whitespace_lays scanned)
    intro before
    have notEnd : ∀ token : Token, (token.kind == .equals || token.kind == .colon) = true →
          token.kind ≠ .eof := by
      intro token isSign ends
      rw [ends] at isSign
      cases isSign
    apply Lays.bind (satisfy_lays scanned notEnd _)
    intro _
    apply Lays.bind (whitespace_lays scanned)
    intro after
    exact .pure fun _ => rfl
  apply Lays.bind sign.trackNewline
  rintro ⟨⟨before, after⟩, crossed⟩
  apply Lays.bind (solid.lays _)
  intro value
  exact .pure fun _ => rfl

/-- A record is laid out as an expression. -/
theorem recordTerm_solid : Solid input (recordTerm expression) Expression.outlines := by
  apply expressionOf_solid scanned
  intro origin
  apply Lays.bind (braced_lays scanned (recordPair_solid scanned solid)).trackNewline
  rintro ⟨⟨base, fields⟩, crossed⟩
  exact .pure fun _ => by simp [outlined, ExpressionNode.outlines]

/-- A term over the expressions and terms inside it is laid out as an expression. -/
theorem termOver_solid (terms : Solid input term Expression.outlines) :
    Solid input (termOver expression term) Expression.outlines := by
  have target : Solid input (choice [nameTerm, parensTerm expression, recordTerm expression])
        Expression.outlines := by
    intro origin
    apply Lays.choiceAfter
    simp only [List.forall_mem_cons, List.not_mem_nil, false_imp_iff, implies_true, and_true]
    exact ⟨nameTerm_solid scanned origin, parensTerm_solid scanned solid origin,
      recordTerm_solid scanned solid origin⟩
  intro origin
  apply Lays.expecting
  apply Lays.choiceAfter
  simp only [List.forall_mem_cons, List.not_mem_nil, false_imp_iff, implies_true, and_true]
  exact ⟨literalTerm_solid scanned origin, bracketTerm_solid scanned solid origin,
    accessorTerm_solid scanned origin, negationTerm_solid scanned terms origin,
    accessible_solid scanned target origin⟩

end Over

/-! ## Applications and chains -/

section Chains

variable {term last : Parser Expression} (solid : Solid input term Expression.outlines)

include solid

/-- A term and the terms that it is applied to are laid out as an expression. -/
theorem application_solid : Solid input (application term) Expression.outlines := by
  refine .of_node scanned fun origin => .expecting (.opening ?_) _
  apply Lays.bind (solid origin).trackNewline
  rintro ⟨head, crossed⟩
  apply Lays.bind (spacedArgument_lays scanned solid).trackNewline.many
  intro arguments
  cases arguments with
  | nil => exact .pure fun _ => .inl (by simp)
  | cons first rest =>
    exact .closing fun _ => .inr (by simp [ExpressionNode.outlines, List.flatMap_map])

variable (lasts : Solid input last Expression.outlines)

include lasts

/-- An operator and its right operand are laid out one after the other. -/
theorem chainClause_lays :
    Lays input origin [] .ended .ended (chainClause term last infixOperator)
      (outlined (·.1.outlines Expression.outlines)) := by
  have symbol : Solid input (located infixOperator) fun found => [.part found.span []] :=
    .located scanned (infixOperator_solid scanned) fun value found stop same span =>
      congrArg (fun inside => [Outline.part span inside]) same
  have operand : Lays input origin [] .begun .ended
        (choice [do return (← attempt term, false), do return (← last, true)])
        (outlined fun found => found.1.outlines) := by
    apply Lays.choiceAfter
    simp only [List.forall_mem_cons, List.not_mem_nil, false_imp_iff, implies_true, and_true]
    constructor
    · apply Lays.bind (solid.lays .begun).attempt
      intro value
      exact .pure fun _ => rfl
    · apply Lays.bind (lasts.lays .begun)
      intro value
      exact .pure fun _ => rfl
  apply Lays.bind (whitespace_lays scanned)
  intro preOperator
  apply Lays.bind (symbol.lays _)
  intro operator
  apply Lays.bind (whitespace_lays scanned)
  intro preExpression
  apply Lays.bind (operand.expecting _)
  rintro ⟨value, final⟩
  exact .pure fun _ => rfl

/-- Clauses are laid out one after the other. -/
theorem clausesUpTo_lays (bound : Nat) :
    Lays input origin [] .ended .ended (clausesUpTo term last infixOperator bound)
      (outlined (·.flatMap (·.outlines Expression.outlines))) := by
  induction bound with
  | zero =>
    intro start _ _ value stop run
    cases run
  | succ bound ih =>
    have step : Lays input origin [] .ended .ended (chainStep term last infixOperator)
        (outlined (·.1.outlines Expression.outlines)) :=
      .commitIf _ (chainClause_lays scanned solid lasts)
    apply Lays.bind step.optional
    intro found
    match found with
    | none => exact .pure fun _ => rfl
    | some (clause, true) => exact .pure fun _ => by simp [outlined]
    | some (clause, false) =>
      apply Lays.bind ih
      intro rest
      exact .pure fun _ => by simp [outlined]

/-- A chain of operators is laid out as an expression. -/
theorem chainExpression_solid : Solid input (chainExpression term last) Expression.outlines := by
  refine .of_node scanned fun origin => ?_
  have operands : Lays input origin [] .fresh .ended
      (do
        let left ← application term
        return (left, ← clauses (application term) last infixOperator))
      (outlined fun chain => chain.1.outlines ++
          chain.2.flatMap (·.outlines Expression.outlines)) := by
    have following : Lays input origin [] .ended .ended (clauses (application term) last
          infixOperator) (outlined (·.flatMap (·.outlines Expression.outlines))) :=
      clausesUpTo_lays scanned (application_solid scanned solid) lasts input.repetitionLimit
    apply Lays.bind (application_solid scanned solid origin)
    intro left
    apply Lays.bind following
    intro clauses
    exact .pure fun _ => by simp [outlined]
  have chain : Lays input origin [] .fresh .ended
      (operatorChain (application term) last infixOperator) fun chain found stop =>
        outlined (fun chain : OperatorChain Reference Expression =>
          chain.left.outlines ++ chain.clauses.flatMap
            (·.outlines Expression.outlines)) chain.value found stop ∧
        chain.span = ⟨origin.position, stop.position⟩ := by
    apply Lays.located
    apply Lays.bind operands.trackNewline
    rintro ⟨⟨left, following⟩, crossed⟩
    exact .pure fun _ => by simp [outlined]
  refine Lays.after chain ?_
  rintro ⟨span, left, clauses, layout⟩ found stop ⟨same, spanned⟩
  have found : left.outlines ++ clauses.flatMap (·.outlines Expression.outlines) = found := same
  cases clauses with
  | nil => exact ⟨left, rfl, .inl (by simpa using found)⟩
  | cons first rest =>
    refine ⟨_, rfl, .inr ?_⟩
    rw [Expression.outlines_mk, ← spanned, ← found]
    rfl

end Chains

/-! ## Expressions that extend as far right as possible -/

section Over

variable {expression term : Parser Expression} (solid : Solid input expression Expression.outlines)

include solid

/-- A condition and its body are laid out one after the other. -/
theorem ifClause_lays {stage : Stage} (moves : stage.read = .ended) :
    Lays input origin [] stage .begun (ifClause expression)
      (outlined (·.outlines Expression.outlines)) := by
  have word :
      Lays input origin [] stage .ended (attempt (keyword "if")) (outlined fun _ => []) := by
    rw [← moves]
    exact (keyword_lays scanned "if").attempt
  apply Lays.bind word
  intro _
  apply Lays.bind (whitespace_lays scanned)
  intro preCondition
  apply Lays.bind (solid.lays _)
  intro condition
  apply Lays.bind (whitespace_lays scanned)
  intro postCondition
  apply Lays.bind (keyword_lays scanned "then")
  intro _
  apply Lays.bind (whitespace_lays scanned)
  intro preBody
  apply Lays.bind (solid.lays _)
  intro body
  apply Lays.bind (whitespace_lays scanned)
  intro postBody
  exact .pure fun _ => by simp [outlined, IfClause.outlines]

omit solid in
/-- The word before the last body of a conditional lays out nothing. -/
theorem elseKeyword_lays :
    Lays input origin [] .begun .begun elseKeyword (outlined fun _ => []) := by
  apply Lays.bind ((keyword_lays scanned "else").expecting _)
  intro _
  exact .last (whitespace_lays scanned) fun _ _ => rfl

/-- A conditional is laid out as an expression. -/
theorem conditional_solid : Solid input (conditional expression) Expression.outlines := by
  apply expressionOf_solid scanned
  intro origin
  have further : Lays input origin [] .begun .begun (elseIfClause expression)
      (outlined (·.value.outlines Expression.outlines)) := by
    apply Lays.attempt
    apply Lays.bind (elseKeyword_lays scanned)
    intro comments
    apply Lays.bind (ifClause_lays scanned solid rfl)
    intro clause
    exact .pure fun _ => rfl
  apply Lays.bind (ifClause_lays scanned solid rfl)
  intro first
  apply Lays.bind further.many
  intro rest
  apply Lays.bind (elseKeyword_lays scanned)
  intro comments
  apply Lays.bind (solid.lays _)
  intro final
  exact .pure fun _ => by simp [outlined, ExpressionNode.outlines, Commented.pre]

omit solid in
/-- An arrow and the comments around it lay out nothing. -/
theorem paddedArrow_lays : Lays input origin [] .ended .begun paddedArrow (outlined fun _ => []) :=
  Lays.padded scanned (token_lays scanned (by decide) _)

/-- An anonymous function is laid out as an expression. -/
theorem lambda_solid : Solid input (lambda expression) Expression.outlines := by
  apply expressionOf_solid scanned
  intro origin
  have inner : Lays input origin [] .fresh .ended
      (do
        let _ ← expecting "an anonymous function" (token .backslash "'\\'")
        let arguments ← spaced patternTerm
        if arguments.isEmpty then
          fail ["an argument pattern"]
        else
          let arrow ← paddedArrow
          return (arguments, arrow.before ++ arrow.after, ← expression))
      (outlined fun found => found.1.flatMap (·.value.outlines) ++ found.2.2.outlines) := by
    apply Lays.bind ((token_lays scanned (by decide) _).expecting _)
    intro _
    apply Lays.bind (spaced_lays scanned (patternTerm_solid scanned))
    intro arguments
    split
    · exact .fail _
    · apply Lays.bind (paddedArrow_lays scanned)
      intro arrow
      apply Lays.bind (solid.lays _)
      intro body
      exact .pure fun _ => by simp [outlined]
  apply Lays.bind inner.trackNewline
  rintro ⟨⟨arguments, comments, body⟩, crossed⟩
  exact .pure fun _ => by simp [outlined, ExpressionNode.outlines]

/-- A branch is laid out as a node that begins with its pattern. -/
theorem branch_lays {stage : Stage} (moves : stage.skip = .begun) (leading : Comments) :
    Lays input origin [] stage .ended (branch expression leading)
      (outlined (·.outlines (Branch.outlines Expression.outlines))) := by
  have head :
      Lays input origin [] stage .begun branchHead (outlined fun head => head.2.1.outlines) := by
    apply Lays.attempt
    have blanks : Lays input origin [] stage .begun whitespace (outlined fun _ => []) := by
      rw [← moves]
      exact whitespace_lays scanned
    apply Lays.bind blanks
    intro comments
    apply Lays.bind .aligned
    intro _
    apply Lays.bind ((pattern_solid scanned).lays _)
    intro pattern
    apply Lays.bind (paddedArrow_lays scanned)
    intro arrow
    exact .pure fun _ => by simp [outlined]
  have laid : Lays input origin [] stage .ended (branch expression leading) fun branch found stop =>
      branch.value.outlines Expression.outlines = found ∧
        branch.span = ⟨branch.value.pattern.span.start, stop.position⟩ := by
    apply Lays.bind head
    rintro ⟨comments, pattern, arrow⟩
    apply Lays.bind (solid.lays _)
    intro body
    exact .closing fun _ => ⟨by simp [Branch.outlines], rfl⟩
  intro start place holds value stop run
  obtain ⟨told, more, row, same, spanned⟩ := laid start place holds value stop run
  obtain ⟨span, comments, ⟨patternSpan, patternNode⟩, before, after, ⟨bodySpan, bodyNode⟩⟩ := value
  obtain rfl : span = ⟨patternSpan.start, stop.position⟩ := spanned
  simp only [Branch.outlines, Pattern.outlines_mk, Expression.outlines_mk, List.nil_append,
    List.singleton_append] at same
  subst same
  have first := row.within _ (.head _)
  have begins := row.from_first (by simp [Outline.isPart])
  have tiles := row.tiles _ (.head _)
  cases tiles with
  | part starts _ wide =>
    have lower : start.position.offset ≤ patternSpan.start.offset := first.start_le
    have upper : patternSpan.stop.offset ≤ stop.position.offset := first.le_stop
    have around : Row input.tokens.toList (⟨patternSpan.start, stop.position⟩ : Span).start.offset _
        (⟨patternSpan.start, stop.position⟩ : Span).stop.offset := begins
    have node := around.part starts told.2.1.2 (Nat.lt_of_lt_of_le wide upper)
    exact ⟨told, _, node.widen lower (Nat.le_refl _), by simp [outlined, Branch.outlines]⟩

/-- A case distinction is laid out as an expression. -/
theorem caseDistinction_solid : Solid input (caseDistinction expression) Expression.outlines := by
  apply expressionOf_solid scanned
  intro origin
  have branches (leading : Comments) : Lays input origin [] .begun .ended
      (do
        let first ← branch expression leading
        return first :: (← many (branch expression [])))
      (outlined (·.flatMap (·.outlines (Branch.outlines Expression.outlines)))) := by
    apply Lays.bind (branch_lays scanned solid rfl leading)
    intro first
    apply Lays.bind (branch_lays scanned solid rfl []).many
    intro rest
    exact .pure fun _ => by simp [outlined]
  apply Lays.bind (keyword_lays scanned "case").attempt
  intro _
  apply Lays.bind (Lays.padded scanned (solid.lays _)).trackNewline
  rintro ⟨subject, crossed⟩
  apply Lays.bind (keyword_lays scanned "of")
  intro _
  apply Lays.bind (whitespace_lays scanned)
  intro leading
  apply Lays.bind (branches leading).withReference
  intro branches
  exact .pure fun _ => by simp [outlined, ExpressionNode.outlines]

/-! ## Declarations -/

omit solid in
/-- What is defined and its arguments are laid out one after the other. -/
theorem definitionHead_solid :
    Solid input definitionHead fun head =>
      head.1.outlines ++ head.2.flatMap (·.value.outlines) := by
  intro origin
  have operator :
      Solid input (patternOf do return .operator (← parenthesizedOperator)) Pattern.outlines := by
    apply patternOf_solid scanned
    intro origin
    apply Lays.bind (parenthesizedOperator_solid scanned origin)
    intro symbol
    exact .pure fun _ => by simp [outlined, PatternNode.children]
  have defined : Lays input origin [] .fresh .ended
      (choice [attempt patternTerm, patternOf do return .operator (← parenthesizedOperator)])
      (outlined Pattern.outlines) := by
    apply Lays.choiceAfter
    simp only [List.forall_mem_cons, List.not_mem_nil, false_imp_iff, implies_true, and_true]
    exact ⟨(patternTerm_solid scanned origin).attempt, operator origin⟩
  have arguments : Lays input origin [] .ended .ended (spaced patternTerm)
        (outlined (·.flatMap (·.value.outlines))) :=
    spaced_lays scanned (patternTerm_solid scanned)
  apply Lays.expecting
  apply Lays.bind defined
  intro pattern
  split
  · apply Lays.bind arguments
    intro found
    exact .pure fun _ => by simp [outlined]
  · apply Lays.bind arguments
    intro found
    exact .pure fun _ => by simp [outlined]
  · exact .pure fun _ => by simp [outlined]

/-- A definition is laid out as its patterns and its body. -/
theorem definition_solid :
    Solid input (definition expression) (Definition.outlines Expression.outlines) := by
  intro origin
  apply Lays.withReference
  apply Lays.bind (definitionHead_solid scanned origin)
  rintro ⟨defined, arguments⟩
  apply Lays.bind (Lays.padded scanned (token_lays scanned (by decide) _))
  intro equals
  apply Lays.bind (solid.lays _)
  intro body
  exact .pure fun _ => by simp [outlined, Definition.outlines]

omit solid in
/-- A type signature is laid out as its type. -/
theorem signature_solid : Solid input signature (·.type.value.outlines) := by
  intro origin
  have name : Lays input origin [] .fresh .ended
      (choice [do return AnnotatedName.value (← lowerName),
        do return .operator (← parenthesizedOperator)])
      (outlined fun _ => []) := by
    apply Lays.choiceAfter
    simp only [List.forall_mem_cons, List.not_mem_nil, false_imp_iff, implies_true, and_true]
    constructor
    · apply Lays.bind (lowerName_solid scanned origin)
      intro name
      exact .pure fun _ => rfl
    · apply Lays.bind (parenthesizedOperator_solid scanned origin)
      intro symbol
      exact .pure fun _ => rfl
  have head : Lays input origin [] .fresh .begun signatureHead (outlined fun _ => []) := by
    apply Lays.attempt
    apply Lays.bind name
    intro name
    apply Lays.bind (Lays.padded scanned (token_lays scanned (by decide) _))
    intro colon
    exact .pure fun _ => rfl
  apply Lays.bind head
  rintro ⟨name, colon⟩
  apply Lays.bind ((typeExpression_solid scanned).lays _)
  intro type
  exact .pure fun _ => rfl

/-- A declaration is laid out as what it is. -/
theorem declaration_solid :
    Solid input (declaration expression) (Declaration.outlines Expression.outlines) := by
  intro origin
  apply Lays.choiceAfter
  simp only [List.forall_mem_cons, List.not_mem_nil, false_imp_iff, implies_true, and_true]
  constructor
  · apply Lays.bind (signature_solid scanned origin)
    intro signature
    exact .pure fun _ => rfl
  · apply Lays.bind (definition_solid scanned solid origin)
    intro definition
    exact .pure fun _ => rfl

omit solid in
/-- The comments at a place in a `let` are laid out as such. -/
theorem letComments_lays {stage : Stage} :
    Lays input origin [] stage stage.skip letComments
      (outlined (·.flatMap (LetEntry.outlines Expression.outlines))) := by
  intro start place holds value stop run
  obtain ⟨comments, _, runComments, made⟩ := bind_done.mp run
  obtain ⟨rfl, rfl⟩ := Outcome.done.inj made
  obtain ⟨spanned, runBlanks⟩ := located_done runComments
  obtain ⟨told, more, row, -⟩ :=
    whitespace_lays scanned start place holds comments.value _ runBlanks
  have entries : Row input.tokens.toList comments.span.start.offset
      (comments.value.map fun _ => .comment comments.span) comments.span.stop.offset := by
    apply Row.comments
    rw [spanned]
    exact row.le
  rw [spanned] at entries
  refine ⟨told, _, entries, ?_⟩
  simp only [outlined, List.flatMap_map, LetEntry.outlines, spanned, List.nil_append]
  exact List.map_eq_flatMap.symm

/-- A declaration in a `let` and the comments after it are laid out one after the other. -/
theorem letBlock_lays :
    Lays input origin [] .begun .begun (letBlock expression)
      (outlined (·.flatMap (LetEntry.outlines Expression.outlines))) := by
  have declared : Solid input (located (declaration expression))
      (·.outlines (Declaration.outlines Expression.outlines)) :=
    .located scanned (declaration_solid scanned solid) fun value found stop same span =>
      congrArg (fun inside => [Outline.part span inside]) same
  have inner (origin : Cursor) : Lays input origin [] .fresh .ended
      (do return LetEntry.declaration (← located (declaration expression))) fun entry found _ =>
        ∃ declared, entry = .declaration declared ∧
          declared.outlines (Declaration.outlines Expression.outlines) = found := by
    apply Lays.bind (declared origin)
    intro found
    exact .pure fun _ => ⟨found, rfl, rfl⟩
  have entry :
      Solid input (located do return LetEntry.declaration (← located (declaration expression)))
        (LetEntry.outlines Expression.outlines) := by
    apply Solid.located scanned inner
    rintro _ _ _ ⟨declared, rfl, rfl⟩ span
    rfl
  apply Lays.bind .aligned
  intro _
  apply Lays.bind (entry.lays _)
  intro entry
  apply Lays.bind (letComments_lays scanned)
  intro comments
  exact .pure fun _ => by simp [outlined]

/-- A `let` is laid out as an expression. -/
theorem letExpression_solid : Solid input (letExpression expression) Expression.outlines := by
  apply expressionOf_solid scanned
  intro origin
  have blocks : Lays input origin [] .begun .begun
      (do
        let first ← letBlock expression
        return first :: (← many (letBlock expression)))
      (outlined (·.flatten.flatMap (LetEntry.outlines Expression.outlines))) := by
    apply Lays.bind (letBlock_lays scanned solid)
    intro first
    apply Lays.bind (letBlock_lays scanned solid).many
    intro rest
    exact .pure fun _ => by simp [outlined, ← List.flatMap_id, List.flatMap_assoc]
  apply Lays.bind (keyword_lays scanned "let").attempt
  intro _
  apply Lays.bind (letComments_lays scanned)
  intro leading
  apply Lays.bind blocks.withReference
  intro blocks
  apply Lays.bind (keyword_lays scanned "in")
  intro _
  apply Lays.bind (whitespace_lays scanned)
  intro comments
  apply Lays.bind (solid.lays _)
  intro body
  exact .pure fun _ => by simp [outlined, ExpressionNode.outlines]

/-! ## Expressions -/

/-- What extends as far right as possible is laid out as an expression. -/
theorem openEnded_solid :
    ∀ parser ∈ openEnded expression, Solid input parser Expression.outlines := by
  simp only [openEnded, List.forall_mem_cons, List.not_mem_nil, false_imp_iff,
    implies_true, and_true]
  exact ⟨letExpression_solid scanned solid, caseDistinction_solid scanned solid,
    conditional_solid scanned solid, lambda_solid scanned solid⟩

/-- An expression over the expressions and terms inside it is laid out as such. -/
theorem expressionOver_solid (terms : Solid input term Expression.outlines) :
    Solid input (expressionOver expression term) Expression.outlines := by
  have lasts : Solid input (choice (openEnded expression)) Expression.outlines :=
    fun origin => .choiceAfter fun parser member =>
      openEnded_solid scanned solid parser member origin
  intro origin
  apply Lays.expecting
  apply Lays.choiceAfter
  intro parser member
  rcases List.mem_append.mp member with isOpenEnded | isChain
  · exact openEnded_solid scanned solid parser isOpenEnded origin
  · obtain rfl := List.mem_singleton.mp isChain
    exact chainExpression_solid scanned terms lasts origin

end Over

/-- At every level expressions and terms are laid out. -/
theorem within_solid (levels : Nat) :
    Solid input (Nested.within levels).expression Expression.outlines ∧
      Solid input (Nested.within levels).term Expression.outlines := by
  induction levels with
  | zero =>
    constructor
    · intro origin start _ _ value stop run
      cases run
    · intro origin start _ _ value stop run
      cases run
  | succ levels ih =>
    have terms := termOver_solid scanned ih.1 ih.2
    exact ⟨expressionOver_solid scanned ih.1 terms, terms⟩

/-- An expression is laid out as such. -/
theorem expression_solid : Solid input expression Expression.outlines :=
  fun origin start place holds value stop run =>
    (within_solid scanned input.nestingLimit).1 origin start place holds value stop run

end Marginalia.Grammar
