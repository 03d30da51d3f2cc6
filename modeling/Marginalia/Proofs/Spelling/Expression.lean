import Marginalia.Grammar.Expression
import Marginalia.Proofs.Spelling.Pattern

/-!
# Reading expressions

Every rule of the grammar of expressions reads what the tree that it makes says, if the parsers of
the expressions and terms inside it do; and by induction over the levels every level does.
-/

namespace Marginalia.Grammar

open Marginalia.Parser Word

variable {input : Input}

/-! ## Terms -/

/-- What a located node reads is what the expression says. -/
theorem expressionOf_reads {node : Parser (ExpressionNode Expression)}
    (reads : Reads input node (·.allComments Expression.allComments) (·.words Expression.words)) :
    Reads input (expressionOf node) Expression.allComments Expression.words :=
  .bind reads.located fun _ => .pure (by simp) (by simp)

/-- A literal term reads as the literal. -/
theorem literalTerm_reads (scanned : input.Scanned) :
    Reads input literalTerm Expression.allComments Expression.words := by
  refine expressionOf_reads (.bind (literal_reads scanned) fun literal => ?_)
  exact .pure (by simp [ExpressionNode.allComments]) (by simp [ExpressionNode.words])

/-- The node of a name says what the name says, also where the name is a literal. -/
theorem words_referenceNode (reference : Reference) :
    (referenceNode reference).words Expression.words = reference.words := by
  unfold referenceNode
  split
  · rename_i isTrue
    rw [isTrue]
    rfl
  · split
    · rename_i isFalse
      rw [isFalse]
      rfl
    · rfl

/-- The node of a name holds no comments. -/
theorem allComments_referenceNode (reference : Reference) :
    (referenceNode reference).allComments Expression.allComments = [] := by
  unfold referenceNode
  split
  · rfl
  · split <;> rfl

/-- A name as a term reads as the name. -/
theorem nameTerm_reads (scanned : input.Scanned) :
    Reads input nameTerm Expression.allComments Expression.words := by
  refine expressionOf_reads (.bind (nameReference_reads scanned) fun reference => ?_)
  exact .pure (allComments_referenceNode reference) (by simp [words_referenceNode])

/-- A dot and a field read as the function that reads the field. -/
theorem accessorTerm_reads (scanned : input.Scanned) :
    Reads input accessorTerm Expression.allComments Expression.words := by
  refine Reads.attempt (expressionOf_reads (.bind (mark_reads scanned (by decide) _) fun _ =>
    .bind (lowerName_reads scanned) fun field => ?_))
  exact .pure (by simp [ExpressionNode.allComments]) (by simp [ExpressionNode.words])

/-- A block of shader source reads as such a term. -/
theorem shaderTerm_reads (scanned : input.Scanned) :
    Reads input shaderTerm Expression.allComments Expression.words := by
  have block : Reads input (token .shader "a shader block") (fun _ => []) fun found =>
      [Word.shader ((found.lexeme.trimEnds 6 2).filter (· != Text.carriageReturn))] := by
    refine satisfy_reads scanned (fun found shape isShader => ?_) _
    have same : found.kind = .shader := by simpa using isShader
    rw [same] at shape
    obtain ⟨body, lexeme⟩ := shape
    have inside := trimEnds_append (Text.ofString Scan.shaderOpening) body
      (Text.ofString Scan.shaderClosing)
    refine ⟨by simp [same], .single ⟨found, body, rfl, ⟨same, lexeme⟩, ?_⟩⟩
    rw [lexeme]
    exact congrArg (List.filter (· != Text.carriageReturn)) inside.symm
  refine expressionOf_reads (.bind block fun found => ?_)
  exact .pure (by simp [ExpressionNode.allComments]) (by simp [ExpressionNode.words])

/-- An operator in parentheses reads as the operator as a value. -/
theorem operatorTerm_reads (scanned : input.Scanned) :
    Reads input operatorTerm Expression.allComments Expression.words := by
  refine Reads.attempt (expressionOf_reads
      (.bind (parenthesizedOperator_reads scanned) fun symbol => ?_))
  exact .pure (by simp [ExpressionNode.allComments])
    (by simp [ExpressionNode.words, Reference.words])

/-- Commas in parentheses read as the function that makes a tuple. -/
theorem tupleFunctionTerm_reads (scanned : input.Scanned) :
    Reads input tupleFunctionTerm Expression.allComments Expression.words := by
  have comma : Reads input (token .comma "','") (fun _ => []) fun _ => [mark .comma] :=
    mark_reads scanned (by decide) _
  have parens : ∀ {kind : TokenKind}, kind.mark?.isSome → ∀ label,
      Reads input (token kind label) (fun _ => []) fun _ => [mark kind] := mark_reads scanned
  refine Reads.attempt (expressionOf_reads
      (.bind (parens (by decide) _) fun _ => .bind comma fun _ =>
    .bind comma.many fun further => .bind (parens (by decide) _) fun _ => ?_))
  refine .pure (by simp [ExpressionNode.allComments]) ?_
  have commas :
      further.flatMap (fun _ => [mark .comma]) = List.replicate further.length (mark .comma) := by
    induction further with
    | nil => rfl
    | cons first rest ih => rw [List.flatMap_cons, ih]; rfl
  simp [ExpressionNode.words, inParens, enclosed, commas, List.replicate_succ]

/-- Reading fields from a term adds no comments, and a dot and a name for each field. -/
theorem accesses_spell (start : Position) (fields : List (Text × Position)) (target : Expression) :
    (fields.foldl (fun record (field, stop) => ⟨⟨start, stop⟩, .access record field⟩)
      target).allComments = target.allComments ∧
    (fields.foldl (fun record (field, stop) => ⟨⟨start, stop⟩, .access record field⟩)
      target).words = target.words ++ fields.flatMap fun access => [mark .dot, lower access.1] := by
  induction fields generalizing target with
  | nil => simp
  | cons access rest ih =>
    obtain ⟨comments, words⟩ := ih ⟨⟨start, access.2⟩, .access target access.1⟩
    rw [List.foldl_cons]
    constructor
    · rw [comments, Expression.allComments_mk]
      rfl
    · rw [words, Expression.words_mk, ExpressionNode.words]
      simp

section Over

variable {expression term : Parser Expression} (scanned : input.Scanned)
  (reads : Reads input expression Expression.allComments Expression.words)

include scanned reads

/-- A minus sign and a term read as the negation. -/
theorem negationTerm_reads :
    Reads input (negationTerm expression) Expression.allComments Expression.words := by
  refine Reads.attempt (expressionOf_reads (.bind (operator_reads scanned "-") fun _ =>
      .bind reads fun operand => ?_))
  exact .pure (by simp [ExpressionNode.allComments]) (by simp [ExpressionNode.words])

/-- A term and fields read from it. -/
theorem accessible_reads :
    Reads input (accessible expression) Expression.allComments Expression.words := by
  have access : Reads input fieldAccess (fun _ => []) fun access => [mark .dot, lower access.1] :=
    .bind (dottedLowerName_reads scanned) fun field => .bind position_reads fun stop =>
      .pure (by simp) (by simp)
  refine .bind position_reads fun start => .bind reads fun target =>
    .bind access.many fun fields => ?_
  obtain ⟨comments, words⟩ := accesses_spell start fields target
  exact .pure (by simp [comments]) (by simp [words])

/-- Two bounds in square brackets read as a range. -/
theorem rangeTerm_reads :
    Reads input (rangeTerm expression) Expression.allComments Expression.words := by
  have inner : Reads input (do
      let _ ← token .leftBracket "'['"
      let low ← padded expression
      let _ ← token .range "'..'"
      let high ← padded expression
      let _ ← token .rightBracket "']'"
      return (low, high))
      (fun bounds => bounds.1.allComments Expression.allComments ++
          bounds.2.allComments Expression.allComments)
      fun bounds => inBrackets (bounds.1.value.words ++ mark .range :: bounds.2.value.words) := by
    refine .bind (mark_reads scanned (by decide) _) fun _ => .bind reads.padded fun low =>
      .bind (mark_reads scanned (by decide) _) fun _ => .bind reads.padded fun high =>
      .bind (mark_reads scanned (by decide) _) fun _ => ?_
    exact .pure (by simp) (by simp [inBrackets, enclosed])
  refine expressionOf_reads (.bind inner.trackNewline fun bounds => ?_)
  obtain ⟨⟨low, high⟩, multiline⟩ := bounds
  exact .pure (by simp [ExpressionNode.allComments]) (by simp [ExpressionNode.words])

/-- Expressions in square brackets read as a list. -/
theorem listTerm_reads :
    Reads input (listTerm expression) Expression.allComments Expression.words := by
  refine expressionOf_reads
    (.bind (reads.group scanned (by decide) (by decide) _) fun ⟨contents, multiline⟩ => ?_)
  exact .pure (by simp [ExpressionNode.allComments]) (by simp [ExpressionNode.words, inBrackets])

/-- What begins with a square bracket reads as such a term. -/
theorem bracketTerm_reads :
    Reads input (bracketTerm expression) Expression.allComments Expression.words := by
  refine .choiceAfter ?_
  simp only [List.forall_mem_cons, List.not_mem_nil, false_imp_iff, implies_true, and_true]
  exact ⟨shaderTerm_reads scanned, (rangeTerm_reads scanned reads).attempt,
    listTerm_reads scanned reads⟩

/-- Expressions in parentheses read as the unit, one expression or a tuple. -/
theorem tupleTerm_reads :
    Reads input (tupleTerm expression) Expression.allComments Expression.words := by
  refine expressionOf_reads (.bindGiven (reads.group scanned (by decide) (by decide) _)
    fun ⟨contents, multiline⟩ given => ?_)
  have trailing := group_trailing given
  match contents with
  | ⟨[], _⟩ =>
    exact .pure (by simp [ExpressionNode.allComments])
      (by simp [ExpressionNode.words, inParens, listed, between])
  | ⟨[only], comments⟩ =>
    obtain rfl : comments = [] := by simpa using trailing
    exact .pure (by simp [ExpressionNode.allComments])
      (by simp [ExpressionNode.words, inParens, listed, between])
  | ⟨first :: second :: rest, comments⟩ =>
    obtain rfl : comments = [] := by simpa using trailing
    exact .pure (by simp [ExpressionNode.allComments]) (by simp [ExpressionNode.words, inParens])

/-- What begins with a parenthesis reads as such a term. -/
theorem parensTerm_reads :
    Reads input (parensTerm expression) Expression.allComments Expression.words := by
  refine .choiceAfter ?_
  simp only [List.forall_mem_cons, List.not_mem_nil, false_imp_iff, implies_true, and_true]
  exact ⟨operatorTerm_reads scanned, tupleFunctionTerm_reads scanned, tupleTerm_reads scanned reads⟩

/-- A field and its value read as such a pair, whichever sign stands between them. -/
theorem recordPair_reads :
    Reads input (recordPair expression) (·.allComments Expression.allComments)
      (·.words Expression.words) := by
  have sign : Reads input (satisfy (fun token => token.kind == .equals || token.kind == .colon)
        "'='") (fun _ => []) fun _ => [assignment] := by
    refine satisfy_reads scanned (fun found shape isSign => ?_) _
    simp only [Bool.or_eq_true, beq_iff_eq] at isSign
    rcases isSign with equals | colon
    · have spelling := Shape.lexeme_of_mark? shape (by rw [equals]; rfl)
      exact ⟨by simp [equals], .single ⟨found, rfl, .inl ⟨equals, spelling⟩⟩⟩
    · have spelling := Shape.lexeme_of_mark? shape (by rw [colon]; rfl)
      exact ⟨by simp [colon], .single ⟨found, rfl, .inr ⟨colon, spelling⟩⟩⟩
  have between : Reads input (do
      let before ← whitespace
      let _ ← satisfy (fun token => token.kind == .equals || token.kind == .colon) "'='"
      return (before, ← whitespace))
      (fun comments => comments.1 ++ comments.2) fun _ => [assignment] := by
    refine .bind whitespace_reads fun before => .bind sign fun _ =>
      .bind whitespace_reads fun after => ?_
    exact .pure (by simp) (by simp)
  refine .bind (lowerName_reads scanned) fun key =>
    .bind between.trackNewline fun ⟨⟨before, after⟩, multiline⟩ =>
    .bind reads fun value => ?_
  refine .pure ?_ ?_
  · simp [Commented.pre, Commented.post]
  · simp [RecordPair.words, Commented.pre, Commented.post]

/-- A record reads as such a term. -/
theorem recordTerm_reads :
    Reads input (recordTerm expression) Expression.allComments Expression.words := by
  refine expressionOf_reads (.bind (braced_reads scanned
      (recordPair_reads scanned reads)).trackNewline fun ⟨⟨base, fields⟩, multiline⟩ => ?_)
  exact .pure (by simp [ExpressionNode.allComments]) (by simp [ExpressionNode.words])

/-- A term over the expressions and terms inside it reads as such a term. -/
theorem termOver_reads (terms : Reads input term Expression.allComments Expression.words) :
    Reads input (termOver expression term) Expression.allComments Expression.words := by
  have target : Reads input (choice [nameTerm, parensTerm expression, recordTerm expression])
      Expression.allComments Expression.words := by
    refine .choiceAfter ?_
    simp only [List.forall_mem_cons, List.not_mem_nil, false_imp_iff, implies_true, and_true]
    exact ⟨nameTerm_reads scanned, parensTerm_reads scanned reads, recordTerm_reads scanned reads⟩
  refine Reads.expecting (.choiceAfter ?_) _
  simp only [List.forall_mem_cons, List.not_mem_nil, false_imp_iff, implies_true, and_true]
  exact ⟨literalTerm_reads scanned, bracketTerm_reads scanned reads, accessorTerm_reads scanned,
    negationTerm_reads scanned terms, accessible_reads scanned target⟩

end Over

/-! ## Applications and chains -/

/-- The comments of a chain that is not yet an expression. -/
def OperatorChain.allComments (chain : OperatorChain Reference Expression) : Comments :=
  chain.left.allComments ++ chain.clauses.flatMap (·.allComments Expression.allComments)

/-- The words of a chain that is not yet an expression. -/
def OperatorChain.words (chain : OperatorChain Reference Expression) : List Word :=
  chain.left.words ++ chain.clauses.flatMap (·.words Expression.words)

section Chains

variable {term last : Parser Expression} (scanned : input.Scanned)
  (reads : Reads input term Expression.allComments Expression.words)

include reads

/-- A term and the terms it is applied to read as the application. -/
theorem application_reads :
    Reads input (application term) Expression.allComments Expression.words := by
  refine Reads.expecting (.bind position_reads fun start =>
      .bind reads.trackNewline fun ⟨head, crossed⟩ =>
    .bind (Reads.spacedArgument reads).trackNewline.many fun arguments => ?_) _
  cases arguments with
  | nil => exact .pure (by simp) (by simp)
  | cons first rest =>
    refine .bind position_reads fun stop => .pure ?_ ?_
    · simp [ExpressionNode.allComments, List.flatMap_map]
    · simp [ExpressionNode.words, List.flatMap_map]

include scanned

/-- An operator and its right operand read as a clause. -/
theorem chainClause_reads (lasts : Reads input last Expression.allComments Expression.words) :
    Reads input (chainClause term last infixOperator) (·.1.allComments Expression.allComments)
      (·.1.words Expression.words) := by
  have operand : Reads input (choice
      [do return (← attempt term, false),
        do return (← last, true)])
      (fun (found : Expression × Bool) => found.1.allComments) (fun found => found.1.words) := by
    refine .choiceAfter ?_
    simp only [List.forall_mem_cons, List.not_mem_nil, false_imp_iff, implies_true, and_true]
    exact ⟨.bind reads.attempt fun _ => .pure (by simp) (by simp), .bind lasts fun _ =>
        .pure (by simp) (by simp)⟩
  refine .bind whitespace_reads fun before => .bind (infixOperator_reads scanned).located
    fun operator =>
    .bind whitespace_reads fun after => .bind (operand.expecting _) fun ⟨found, final⟩ => ?_
  exact .pure (by simp) (by simp [Clause.words])

/-- Clauses read as one after the other. -/
theorem clausesUpTo_reads
    (lasts : Reads input last Expression.allComments Expression.words) (bound : Nat) :
    Reads input (clausesUpTo term last infixOperator bound) (·.flatMap
      (·.allComments Expression.allComments)) (·.flatMap (·.words Expression.words)) := by
  induction bound with
  | zero =>
    intro start value stop run
    cases run
  | succ bound ih =>
    refine .bind ((chainClause_reads scanned reads lasts).commitIf _).optional fun found => ?_
    match found with
    | none => exact .pure (by simp) (by simp)
    | some (clause, true) => exact .pure (by simp) (by simp)
    | some (clause, false) => exact .bind ih fun rest => .pure (by simp) (by simp)

/-- Operands with operators between them read as the chain. -/
theorem chainExpression_reads (lasts : Reads input last Expression.allComments Expression.words) :
    Reads input (chainExpression term last) Expression.allComments Expression.words := by
  have applications := application_reads reads
  have following : Reads input (clauses (application term) last infixOperator)
      (·.flatMap (·.allComments Expression.allComments)) (·.flatMap (·.words Expression.words)) :=
    fun start value stop run =>
      clausesUpTo_reads scanned applications lasts input.repetitionLimit start value stop run
  have inner : Reads input (do
      let left ← application term
      return (left, ← clauses (application term) last infixOperator))
      (fun found => found.1.allComments ++ found.2.flatMap (·.allComments Expression.allComments))
      fun found => found.1.words ++ found.2.flatMap (·.words Expression.words) :=
    .bind applications fun left => .bind following fun found => .pure (by simp) (by simp)
  have chain : Reads input (operatorChain (application term) last infixOperator)
        (·.value.allComments) (·.value.words) := by
    refine Reads.located (.bind inner.trackNewline fun ⟨⟨left, found⟩, crossed⟩ => ?_)
    exact .pure (by simp [OperatorChain.allComments]) (by simp [OperatorChain.words])
  refine .bind chain fun ⟨span, left, found, layout⟩ => ?_
  cases found with
  | nil => exact .pure (by simp [OperatorChain.allComments]) (by simp [OperatorChain.words])
  | cons clause rest =>
    refine .pure ?_ ?_
    · simp [ExpressionNode.allComments, OperatorChain.allComments]
    · simp [ExpressionNode.words, OperatorChain.words]

end Chains

/-! ## Heads of declarations -/

/-- The name or pattern that is defined and its arguments read as these. -/
theorem definitionHead_reads (scanned : input.Scanned) :
    Reads input definitionHead (fun (defined, arguments) =>
      defined.allComments ++ arguments.flatMap (·.allComments Pattern.allComments))
      fun (defined, arguments) => defined.words ++ arguments.flatMap (·.value.words) := by
  have terms := patternTerm_reads scanned
  have operators : Reads input (patternOf do return .operator (← parenthesizedOperator))
        Pattern.allComments Pattern.words := by
    refine patternOf_reads (.bind (parenthesizedOperator_reads scanned) fun symbol => ?_)
    exact .pure (by simp [PatternNode.allComments]) (by simp [PatternNode.words])
  have heads :
      ∀ parser ∈ [attempt patternTerm, patternOf do return .operator (← parenthesizedOperator)],
        Reads input parser Pattern.allComments Pattern.words := by
    simp only [List.forall_mem_cons, List.not_mem_nil, false_imp_iff, implies_true, and_true]
    exact ⟨terms.attempt, operators⟩
  refine Reads.expecting (.bind (.choiceAfter heads) fun defined => ?_) _
  split
  · exact .bind (Reads.spaced terms) fun arguments => .pure (by simp) (by simp)
  · exact .bind (Reads.spaced terms) fun arguments => .pure (by simp) (by simp)
  · exact .pure (by simp) (by simp)

/-- A type signature reads as such. -/
theorem signature_reads (scanned : input.Scanned) :
    Reads input signature Signature.allComments Signature.words := by
  have names : Reads input (choice
      [do return .value (← lowerName),
        do return .operator (← parenthesizedOperator)]) (fun _ => []) AnnotatedName.words := by
    refine .choiceAfter ?_
    simp only [List.forall_mem_cons, List.not_mem_nil, false_imp_iff, implies_true, and_true]
    constructor
    · exact .bind (lowerName_reads scanned) fun _ => .pure (by simp) (by simp [AnnotatedName.words])
    · exact .bind (parenthesizedOperator_reads scanned) fun _ =>
        .pure (by simp) (by simp [AnnotatedName.words])
  have head : Reads input signatureHead (·.2.allComments uncommented) fun found =>
        found.1.words ++ [mark .colon] := by
    refine Reads.attempt (.bind names fun name => .bind (mark_reads scanned (by decide) _).padded
        fun colon => ?_)
    exact .pure (by simp) (by simp)
  refine .bind head fun ⟨name, colon⟩ => .bind (typeExpression_reads scanned) fun type => ?_
  refine .pure ?_ ?_
  · simp [Commented.pre, Commented.post]
  · simp [Signature.words, Commented.pre, Commented.post]

/-- The comments at a place in a `let` read as entries. -/
theorem letComments_reads :
    Reads input letComments (·.flatMap (·.value.allComments Expression.allComments))
      (·.flatMap (·.value.words Expression.words)) := by
  refine .bind whitespace_reads.located fun comments => .pure ?_ ?_
  · simp [List.flatMap_map, LetEntry.allComments]
  · simp [List.flatMap_map, LetEntry.words]

/-! ## Conditionals, functions and case distinctions -/

section OpenEnded

variable {expression : Parser Expression} (scanned : input.Scanned)
  (reads : Reads input expression Expression.allComments Expression.words)

include scanned

/-- The word before a last or further alternative reads as itself and the comments after it. -/
theorem elseKeyword_reads : Reads input elseKeyword id fun _ => [keyword "else"] :=
  .bind ((keyword_reads scanned "else").expecting _) fun _ =>
    .last whitespace_reads (by simp) (by simp)

/-- An arrow reads as itself and the comments around it. -/
theorem paddedArrow_reads :
    Reads input paddedArrow (·.allComments uncommented) fun _ => [mark .arrow] :=
  .last (mark_reads scanned (by decide) _).padded (by simp) (by simp)

/-- What stands before the body of a branch reads as the comments, the pattern and the arrow. -/
theorem branchHead_reads :
    Reads input branchHead (fun (comments, pattern, arrow) =>
      comments ++ (pattern.allComments ++ arrow.allComments uncommented)) fun (_, pattern, _) =>
      pattern.words ++ [mark .arrow] := by
  refine Reads.attempt (.bind whitespace_reads fun comments => .bind aligned_reads fun _ =>
    .bind (pattern_reads scanned) fun pattern => .bind (paddedArrow_reads scanned) fun arrow => ?_)
  exact .pure (by simp) (by simp)

include reads

/-- A condition and its body read as such a clause. -/
theorem ifClause_reads :
    Reads input (ifClause expression) (·.allComments Expression.allComments)
      (·.words Expression.words) := by
  refine .bind (keyword_reads scanned "if").attempt fun _ =>
    .bind whitespace_reads fun preCondition =>
    .bind reads fun condition => .bind whitespace_reads fun postCondition =>
    .bind (keyword_reads scanned "then") fun _ => .bind whitespace_reads fun preBody =>
    .bind reads fun body => .bind whitespace_reads fun postBody => ?_
  exact .pure (by simp) (by simp [IfClause.words])

/-- A conditional reads as such an expression. -/
theorem conditional_reads :
    Reads input (conditional expression) Expression.allComments Expression.words := by
  have further : Reads input (elseIfClause expression)
      (·.allComments (IfClause.allComments Expression.allComments))
      fun clause => keyword "else" :: clause.value.words Expression.words := by
    refine Reads.attempt (.bind (elseKeyword_reads scanned) fun comments =>
      .bind (ifClause_reads scanned reads) fun clause => ?_)
    exact .pure (by simp [Commented.pre]) (by simp [Commented.pre])
  refine expressionOf_reads (.bind (ifClause_reads scanned reads) fun first =>
      .bind further.many fun rest =>
    .bind (elseKeyword_reads scanned) fun comments => .bind reads fun final => ?_)
  refine .pure ?_ ?_
  · simp [ExpressionNode.allComments, Commented.pre]
  · simp [ExpressionNode.words, Commented.pre]

/-- An anonymous function reads as such an expression, whichever sign begins it. -/
theorem lambda_reads : Reads input (lambda expression) Expression.allComments Expression.words := by
  have sign : Reads input (token .backslash "'\\'") (fun _ => []) fun _ => [Word.lambda] := by
    refine satisfy_reads scanned (fun found shape isSign => ?_) _
    have same : found.kind = .backslash := by simpa using isSign
    rw [same] at shape
    refine ⟨by simp [same], .single ⟨found, rfl, ?_⟩⟩
    rcases shape with backslash | glyph
    · exact .inl ⟨same, backslash⟩
    · exact .inr ⟨same, glyph⟩
  have inner : Reads input (do
      let _ ← expecting "an anonymous function" (token .backslash "'\\'")
      let arguments ← spaced patternTerm
      if arguments.isEmpty then
        fail ["an argument pattern"]
      else
        let arrow ← paddedArrow
        return (arguments, arrow.before ++ arrow.after, ← expression))
      (fun (arguments, comments, body) =>
        arguments.flatMap (·.allComments Pattern.allComments) ++ (comments ++ body.allComments))
      fun (arguments, _, body) =>
        Word.lambda :: (arguments.flatMap (·.value.words) ++ mark .arrow :: body.words) := by
    refine .bind (sign.expecting _) fun _ => .bind (Reads.spaced (patternTerm_reads scanned))
      fun arguments => ?_
    split
    · exact .fail _
    · refine .bind (paddedArrow_reads scanned) fun arrow => .bind reads fun body => ?_
      exact .pure (by simp) (by simp)
  refine expressionOf_reads
    (.bind inner.trackNewline fun ⟨⟨arguments, comments, body⟩, multiline⟩ => ?_)
  exact .pure (by simp [ExpressionNode.allComments]) (by simp [ExpressionNode.words])

/-- A branch reads as such, after the comments that lead it. -/
theorem branch_reads (leading : Comments) :
    Extends input leading [] (branch expression leading)
      (·.value.allComments Expression.allComments) (·.value.words Expression.words) := by
  refine .bind (branchHead_reads scanned) fun ⟨comments, pattern, arrow⟩ => .bind reads fun body =>
    .bind position_reads fun stop => ?_
  exact .pure (by simp) (by simp [Branch.words])

/-- A case distinction reads as such an expression. -/
theorem caseDistinction_reads :
    Reads input (caseDistinction expression) Expression.allComments Expression.words := by
  have branches (leading : Comments) : Extends input leading [] (withReference do
      let first ← branch expression leading
      return first :: (← many (branch expression [])))
      (·.flatMap (·.value.allComments Expression.allComments))
        (·.flatMap (·.value.words Expression.words)) := by
    refine .withReference (.bindAfter [] (branch_reads scanned reads leading) (by simp)
        fun first _ => ?_)
    have further : Reads input (branch expression []) (·.value.allComments Expression.allComments)
        (·.value.words Expression.words) := branch_reads scanned reads []
    exact .bind further.many fun rest => .pure (by simp) (by simp)
  refine expressionOf_reads (.bind (keyword_reads scanned "case").attempt fun _ =>
    .bind reads.padded.trackNewline fun ⟨subject, multiline⟩ =>
      .bind (keyword_reads scanned "of") fun _ =>
    .bind whitespace_reads fun leading => ?_)
  refine .bindAfter (subject.allComments Expression.allComments) (branches leading) (by simp)
    fun found _ => ?_
  exact .pure (by simp [ExpressionNode.allComments]) (by simp [ExpressionNode.words])

/-- A value or function definition reads as such. -/
theorem definition_reads :
    Reads input (definition expression) (·.allComments Expression.allComments)
      (·.words Expression.words) := by
  refine .withReference (.bind (definitionHead_reads scanned) fun ⟨defined, arguments⟩ =>
    .bind (mark_reads scanned (by decide) _).padded fun equals => .bind reads fun body => ?_)
  exact .pure (by simp) (by simp [Definition.words])

/-- A signature or a definition reads as such. -/
theorem declaration_reads :
    Reads input (declaration expression) (·.allComments Expression.allComments)
      (·.words Expression.words) := by
  refine .choiceAfter ?_
  simp only [List.forall_mem_cons, List.not_mem_nil, false_imp_iff, implies_true, and_true]
  constructor
  · exact .bind (signature_reads scanned) fun _ =>
      .pure (by simp [Declaration.allComments]) (by simp [Declaration.words])
  · exact .bind (definition_reads scanned reads) fun _ =>
      .pure (by simp [Declaration.allComments]) (by simp [Declaration.words])

/-- An aligned declaration and the comments after it read as entries. -/
theorem letBlock_reads :
    Reads input (letBlock expression) (·.flatMap (·.value.allComments Expression.allComments))
      (·.flatMap (·.value.words Expression.words)) := by
  have entry : Reads input (do return .declaration (← located (declaration expression)))
      (LetEntry.allComments Expression.allComments) (LetEntry.words Expression.words) :=
    .bind (declaration_reads scanned reads).located fun _ =>
      .pure (by simp [LetEntry.allComments]) (by simp [LetEntry.words])
  refine .bind aligned_reads fun _ => .bind entry.located fun first =>
    .bind letComments_reads fun comments => ?_
  exact .pure (by simp) (by simp)

/-- A `let` reads as such an expression. -/
theorem letExpression_reads :
    Reads input (letExpression expression) Expression.allComments Expression.words := by
  have blocks : Reads input (withReference do
      let first ← letBlock expression
      return first :: (← many (letBlock expression)))
      (·.flatMap (·.flatMap (·.value.allComments Expression.allComments)))
      (·.flatMap (·.flatMap (·.value.words Expression.words))) := by
    have block := letBlock_reads scanned reads
    exact .withReference (.bind block fun first => .bind block.many fun rest =>
        .pure (by simp) (by simp))
  refine expressionOf_reads (.bind (keyword_reads scanned "let").attempt fun _ =>
    .bind letComments_reads fun leading => .bind blocks fun found =>
      .bind (keyword_reads scanned "in") fun _ =>
    .bind whitespace_reads fun comments => .bind reads fun body => ?_)
  refine .pure ?_ ?_
  · rw [ExpressionNode.allComments, List.flatMap_append, List.flatten_eq_flatMap,
      List.flatMap_assoc]
    simp
  · rw [ExpressionNode.words, List.flatMap_append, List.flatten_eq_flatMap, List.flatMap_assoc]
    simp

/-! ## Expressions -/

/-- The expressions that extend as far right as possible read as such. -/
theorem openEnded_reads :
    ∀ parser ∈ openEnded expression,
      Reads input parser Expression.allComments Expression.words := by
  simp only [openEnded, List.forall_mem_cons, List.not_mem_nil, false_imp_iff,
    implies_true, and_true]
  exact ⟨letExpression_reads scanned reads, caseDistinction_reads scanned reads,
    conditional_reads scanned reads, lambda_reads scanned reads⟩

/-- An expression over the expressions and terms inside it reads as such. -/
theorem expressionOver_reads {term : Parser Expression}
    (terms : Reads input term Expression.allComments Expression.words) :
    Reads input (expressionOver expression term) Expression.allComments Expression.words := by
  have openEnded := openEnded_reads scanned reads
  refine Reads.expecting (.choiceAfter fun parser member => ?_) _
  rcases List.mem_append.mp member with isOpenEnded | isChain
  · exact openEnded parser isOpenEnded
  · obtain rfl := List.mem_singleton.mp isChain
    exact chainExpression_reads scanned terms (.choiceAfter openEnded)

end OpenEnded

/-- At every level expressions and terms read as such. -/
theorem within_reads (scanned : input.Scanned) (levels : Nat) :
    Reads input (Nested.within levels).expression Expression.allComments Expression.words ∧
      Reads input (Nested.within levels).term Expression.allComments Expression.words := by
  induction levels with
  | zero =>
    constructor <;>
      · intro start value stop run
        cases run
  | succ levels ih =>
    obtain ⟨expressions, terms⟩ := ih
    have outer := termOver_reads scanned expressions terms
    exact ⟨expressionOver_reads scanned expressions outer, outer⟩

/-- An expression reads as what its tree says. -/
theorem expression_reads (scanned : input.Scanned) :
    Reads input expression Expression.allComments Expression.words :=
  fun start value stop run => (within_reads scanned input.nestingLimit).1 start value stop run

end Marginalia.Grammar
