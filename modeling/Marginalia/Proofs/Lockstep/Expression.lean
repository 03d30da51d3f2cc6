import Marginalia.Grammar.Expression
import Marginalia.Proofs.Lockstep.Pattern

/-!
# Expressions in lockstep

Every rule of the grammar of expressions runs in lockstep on corresponding inputs, if the rules
inside it do with one token less; and by induction over the tokens that are left every level does.
-/

namespace Marginalia.Grammar

open Marginalia.Parser

variable {left right : Input} {c : Correspondence left right} {n d : Nat}

/-- What is seen of a node with expressions inside it. -/
def expressionNodeView (view : View) : ExpressionNode Expression → ExpressionNode Expression :=
  ExpressionNode.view view (Expression.view view)

/-- A located node runs in lockstep as an expression. -/
theorem expressionOf_steps {p q : Parser (ExpressionNode Expression)}
    (node : c.Steps n d expressionNodeView p q) :
    c.Steps n d Expression.view (expressionOf p) (expressionOf q) :=
  .andThen node.located fun _ _ same => .pure (by simpa [expressionNodeView] using same)

/-! ## Terms -/

/-- A literal term runs in lockstep. -/
theorem literalTerm_steps : c.Steps n 1 Expression.view literalTerm literalTerm :=
  expressionOf_steps (.andThen literal_steps fun _ _ same =>
      .pure (congrArg ExpressionNode.literal same))

/-- The node of a name is seen as it is. -/
theorem view_referenceNode (view : View) (reference : Reference) :
    expressionNodeView view (referenceNode reference) = referenceNode reference := by
  unfold referenceNode
  split
  · rfl
  · split <;> rfl

/-- A name runs in lockstep as a term. -/
theorem nameTerm_steps : c.Steps n 1 Expression.view nameTerm nameTerm := by
  refine expressionOf_steps (.andThen nameReference_steps fun reference reference' same => .pure ?_)
  rw [Correspondence.Same, view_referenceNode, view_referenceNode, same.eq]

/-- The function that reads a field runs in lockstep. -/
theorem accessorTerm_steps : c.Steps n 1 Expression.view accessorTerm accessorTerm := by
  refine .attempt (expressionOf_steps (.andThen dot_steps fun _ _ _ => ?_))
  exact .weaken (.andThen lowerName_steps fun _ _ same =>
      .pure (congrArg ExpressionNode.accessor same))

/-- A block of shader source runs in lockstep. -/
theorem shaderTerm_steps : c.Steps n 1 Expression.view shaderTerm shaderTerm := by
  refine expressionOf_steps (.andThen (.token (by decide) _) fun t t' same => .pure ?_)
  rw [(Token.eq_of_view same).2]
  rfl

/-- An operator in parentheses runs in lockstep. -/
theorem operatorTerm_steps : c.Steps n 1 Expression.view operatorTerm operatorTerm := by
  refine .attempt (expressionOf_steps
      (.andThen parenthesizedOperator_steps fun symbol symbol' same => ?_))
  exact .pure (congrArg (fun symbol => ExpressionNode.reference (.operator symbol)) same)

/-- Commas in parentheses run in lockstep. -/
theorem tupleFunctionTerm_steps :
    c.Steps n 1 Expression.view tupleFunctionTerm tupleFunctionTerm := by
  have comma : c.Steps n 1 Token.view (token .comma "','") (token .comma "','") :=
    .token (by decide) _
  refine .attempt (expressionOf_steps (.andThen (.token (by decide) _) fun _ _ _ => ?_))
  refine .bind comma.weaken fun _ _ _ => .bind comma.many fun further further' same => ?_
  refine .weaken (.andThen (.token (by decide) _) fun _ _ _ => .pure ?_)
  have lengths : further.length = further'.length := by simpa using congrArg List.length same
  rw [lengths]
  rfl

/-- Fields read from a term are seen as fields read from what is seen of it. -/
theorem view_accesses (view : View) (start : Position)
    (fields : List (Text × Position)) (target : Expression) :
    (fields.foldl (fun record (field, stop) => ⟨⟨start, stop⟩, .access record field⟩) target).view
      view = (fields.map fun access => (access.1, view.position access.2)).foldl (fun record (field,
      stop) => ⟨⟨view.position start, stop⟩, .access record field⟩) (target.view view) := by
  induction fields generalizing target with
  | nil => rfl
  | cons access rest ih =>
    rw [List.foldl_cons, ih, Expression.view_mk]
    rfl

/-- A field read from a record runs in lockstep. -/
theorem fieldAccess_steps :
    c.Steps n 1 (fun view (access : Text × Position) => (access.1, view.position access.2))
      fieldAccess fieldAccess :=
  .andThen dottedLowerName_steps fun _ _ sameField => .bind .position fun _ _ sameStop =>
    .pure (Prod.ext sameField sameStop)

/-- A term and fields read from it run in lockstep if the term does. -/
theorem accessible_steps {p q : Parser Expression} (target : c.Steps n d Expression.view p q) :
    c.Steps n d Expression.view (accessible p) (accessible q) := by
  refine .bind .position fun start start' sameStart =>
    .andThen target fun record record' sameRecord => ?_
  refine .bind fieldAccess_steps.many fun fields fields' sameFields => .pure ?_
  rw [Correspondence.Same, view_accesses, view_accesses, sameStart, sameRecord]
  exact congrArg (List.foldl _ _) sameFields

section Over

variable {p q : Parser Expression} (expression : c.Steps (n - 1) 1 Expression.view p q)

include expression

/-- A minus sign and a term run in lockstep. -/
theorem negationTerm_steps : c.Steps n 1 Expression.view (negationTerm p) (negationTerm q) := by
  refine .attempt (expressionOf_steps (.follow (.operator "-") fun _ _ _ => ?_))
  exact .weaken (.andThen expression fun _ _ same => .pure (congrArg ExpressionNode.negation same))

/-- Two bounds in square brackets run in lockstep. -/
theorem rangeTerm_steps : c.Steps n 1 Expression.view (rangeTerm p) (rangeTerm q) := by
  have bounds : c.Steps n 1
      (fun view (found : Commented Expression × Commented Expression) =>
        (found.1.view view (Expression.view view), found.2.view view (Expression.view view)))
      (do
        let _ ← token .leftBracket "'['"
        let low ← padded p
        let _ ← token .range "'..'"
        let high ← padded p
        let _ ← token .rightBracket "']'"
        return (low, high))
      (do
        let _ ← token .leftBracket "'['"
        let low ← padded q
        let _ ← token .range "'..'"
        let high ← padded q
        let _ ← token .rightBracket "']'"
        return (low, high)) := by
    refine .follow (.token (by decide) _) fun _ _ _ => .bind expression.padded.weaken
      fun low low' sameLow => ?_
    refine .weaken (.andThen (.token (by decide) _) fun _ _ _ => ?_)
    refine .bind expression.padded.weaken fun high high' sameHigh => ?_
    exact .weaken (.andThen (.token (by decide) _) fun _ _ _ => .pure (Prod.ext sameLow sameHigh))
  refine expressionOf_steps (.andThen bounds.trackNewline ?_)
  rintro ⟨⟨low, high⟩, multiline⟩ ⟨⟨low', high'⟩, multiline'⟩ same
  exact .pure (by simpa [expressionNodeView, ExpressionNode.view, and_assoc] using same)

/-- A list of elements runs in lockstep. -/
theorem listTerm_steps : c.Steps n 1 Expression.view (listTerm p) (listTerm q) := by
  refine expressionOf_steps (.andThen (.group (by decide) rfl (by decide) expression _) ?_)
  rintro ⟨contents, multiline⟩ ⟨contents', multiline'⟩ same
  exact .pure (by simpa [expressionNodeView, ExpressionNode.view, Items.view, and_assoc] using same)

/-- Everything that begins with a square bracket runs in lockstep. -/
theorem bracketTerm_steps : c.Steps n 1 Expression.view (bracketTerm p) (bracketTerm q) :=
  .choice (.cons shaderTerm_steps
      (.cons (rangeTerm_steps expression).attempt (.cons (listTerm_steps expression) .nil)))

/-- Expressions in parentheses run in lockstep. -/
theorem tupleTerm_steps : c.Steps n 1 Expression.view (tupleTerm p) (tupleTerm q) := by
  refine expressionOf_steps (.andThen (.group (by decide) rfl (by decide) expression _) ?_)
  rintro ⟨⟨elements, trailing⟩, multiline⟩ ⟨⟨elements', trailing'⟩, multiline'⟩ same
  obtain ⟨sameElements, sameTrailing, sameMultiline⟩ := Items.eq_of_view same
  obtain rfl : multiline = multiline' := sameMultiline
  rcases few_or_many sameElements with ⟨rfl, rfl⟩ | ⟨a, b, rfl, rfl⟩ | ⟨_, _, _, _, _, _, rfl, rfl⟩
  · exact .pure (by simpa [expressionNodeView, ExpressionNode.view] using sameTrailing)
  · exact .pure (by simpa [expressionNodeView, ExpressionNode.view] using sameElements)
  · exact .pure (by simpa [expressionNodeView, ExpressionNode.view] using sameElements)

/-- Everything that begins with a parenthesis runs in lockstep. -/
theorem parensTerm_steps : c.Steps n 1 Expression.view (parensTerm p) (parensTerm q) :=
  .choice (.cons operatorTerm_steps
      (.cons tupleFunctionTerm_steps (.cons (tupleTerm_steps expression) .nil)))

/-- A field and its value run in lockstep. -/
theorem recordPair_steps :
    c.Steps (n - 1) 1 (fun view => RecordPair.view view (Expression.view view)) (recordPair p)
      (recordPair q) := by
  have mark : c.Steps (n - 1) 0
      (fun view (found : Comments × Comments) => (view.comments found.1, view.comments found.2))
      (do
        let before ← whitespace
        let _ ← satisfy (fun token => token.kind == .equals || token.kind == .colon) "'='"
        return (before, ← whitespace))
      (do
        let before ← whitespace
        let _ ← satisfy (fun token => token.kind == .equals || token.kind == .colon) "'='"
        return (before, ← whitespace)) := by
    refine .bind .whitespace fun before before' sameBefore => ?_
    refine .weaken (.andThen (.satisfy (fun t t' sameKind _ => ?_) (fun t isMark ends => ?_) _)
        fun _ _ _ => ?_)
    · rw [sameKind]
    · rw [ends] at isMark
      cases isMark
    · exact .bind .whitespace fun after after' sameAfter => .pure (Prod.ext sameBefore sameAfter)
  refine .andThen lowerName_steps fun key key' sameKey => .bind mark.trackNewline ?_
  rintro ⟨⟨before, after⟩, multiline⟩ ⟨⟨before', after'⟩, multiline'⟩ same
  refine .bind expression.weaken fun value value' sameValue => .pure ?_
  simp only [Prod.mk.injEq, Correspondence.Same] at same
  simp [RecordPair.view, Commented.pre, Commented.post, sameKey.eq, sameValue, same]

/-- A record or a record update runs in lockstep. -/
theorem recordTerm_steps : c.Steps n 1 Expression.view (recordTerm p) (recordTerm q) := by
  refine expressionOf_steps (.andThen (braced_steps (recordPair_steps expression)).trackNewline ?_)
  rintro ⟨⟨base, fields⟩, multiline⟩ ⟨⟨base', fields'⟩, multiline'⟩ same
  refine .pure ?_
  simpa [expressionNodeView, ExpressionNode.view, bracedView, Items.view, and_assoc] using same

/-- A term over the expressions and terms inside it runs in lockstep. -/
theorem termOver_steps {s t : Parser Expression} (term : c.Steps (n - 1) 1 Expression.view s t) :
    c.Steps n 1 Expression.view (termOver p s) (termOver q t) :=
  .expecting _ (.choice (.cons literalTerm_steps
      (.cons (bracketTerm_steps expression) (.cons accessorTerm_steps
      (.cons (negationTerm_steps term) (.cons (accessible_steps (.choice (.cons nameTerm_steps
      (.cons (parensTerm_steps expression) (.cons (recordTerm_steps expression) .nil))))) .nil))))))

end Over

/-! ## Applications and chains -/

/-- A term applied to the terms that follow it runs in lockstep if the term does. -/
theorem application_steps {p q : Parser Expression} (term : c.Steps n 1 Expression.view p q) :
    c.Steps n 1 Expression.view (application p) (application q) := by
  refine .expecting _ (.bind .position fun start start' sameStart => .andThen term.trackNewline ?_)
  rintro ⟨head, crossed⟩ ⟨head', crossed'⟩ sameFound
  obtain ⟨sameHead, sameCrossed⟩ := Prod.mk.inj sameFound
  obtain rfl : crossed = crossed' := sameCrossed
  refine .bind (spacedArgument_steps term).trackNewline.many fun arguments arguments' same => ?_
  match arguments, arguments', same with
  | [], [], _ => exact .pure sameHead
  | first :: rest, first' :: rest', same =>
    have sameArguments := congrArg (List.map Prod.fst) same
    have sameBreaks := congrArg (List.map Prod.snd) same
    simp only [List.map_map, List.map_cons, List.cons.injEq,
      Function.comp_def] at sameArguments sameBreaks
    refine .bind .position fun stop stop' sameStop => .pure ?_
    simp only [Correspondence.Same, Expression.view_mk, View.span, ExpressionNode.view,
      List.map_map, List.map_cons, Function.comp_def, sameStart, sameStop, sameHead,
      sameArguments, sameBreaks]

section Chain

variable {α ω γ : Type} {seen : View → α → γ} {operator : Parser ω} {p q s t : Parser α}

/-- What is seen of a chain. -/
def OperatorChain.view (view : View) (inner : α → γ) (chain : OperatorChain ω α) :
    OperatorChain ω γ :=
  ⟨inner chain.left, chain.clauses.map (Clause.view view inner), chain.layout⟩

/-- A clause runs in lockstep if its operator and its operands do. -/
theorem chainStep_steps (operators : c.Steps n 1 View.plain operator operator)
    (term : c.Steps n 1 seen p q) (last : c.Steps n 1 seen s t) :
    c.Steps n 1 (fun view found => (Clause.view view (seen view) found.1, found.2))
      (chainStep p s operator) (chainStep q t operator) := by
  have operand :
      c.Steps n 1 (fun view (found : α × Bool) => (seen view found.1, found.2)) (expecting
        "an expression" (choice [do return (← attempt p, false), do return (← s, true)])) (expecting
        "an expression" (choice [do return (← attempt q, false), do return (← t, true)])) := by
    refine .expecting _ (.choice (.cons ?_ (.cons ?_ .nil)))
    · exact .andThen term.attempt fun _ _ same => .pure (Prod.ext same rfl)
    · exact .andThen last fun _ _ same => .pure (Prod.ext same rfl)
  have check :
      c.Steps n 1 View.plain (do let _ ← whitespace; operator) (do let _ ← whitespace; operator) :=
    .bind .whitespace fun _ _ _ => operators
  refine .commitIf check (.bind .whitespace fun preOperator preOperator' samePre => ?_)
  refine .andThen operators.located fun symbol symbol' sameSymbol => ?_
  refine .bind .whitespace fun preExpression preExpression' samePost => ?_
  refine .bind operand.weaken ?_
  rintro ⟨value, final⟩ ⟨value', final'⟩ same
  obtain ⟨sameValue, sameFinal⟩ := Prod.mk.inj same
  refine .pure (Prod.ext ?_ sameFinal)
  show Clause.mk _ _ _ _ = Clause.mk _ _ _ _
  rw [samePre, samePost, sameValue]
  exact congrArg (Clause.mk _ · _ _) sameSymbol

/-- Clauses under bounds that exceed the tokens left run in lockstep. -/
theorem clausesUpTo_steps (operators : c.Steps n 1 View.plain operator operator)
    (term : c.Steps n 1 seen p q) (last : c.Steps n 1 seen s t) (m bound bound' : Nat)
    (within : m ≤ n) (enough : m < bound) (enough' : m < bound') :
    c.Steps m 0 (fun view => List.map (Clause.view view (seen view)))
      (clausesUpTo p s operator bound) (clausesUpTo q t operator bound') := by
  induction m generalizing bound bound' with
  | zero => exact .of_none
  | succ m ih =>
    obtain ⟨bound, rfl, further⟩ := Correspondence.Steps.exists_succ_of_lt enough
    obtain ⟨bound', rfl, further'⟩ := Correspondence.Steps.exists_succ_of_lt enough'
    refine .optionalThen ((chainStep_steps operators term last).mono within) (.pure rfl) ?_
    rintro ⟨clause, final⟩ ⟨clause', final'⟩ same
    obtain ⟨sameClause, sameFinal⟩ := Prod.mk.inj same
    obtain rfl : final = final' := sameFinal
    cases final with
    | true => exact .pure (congrArg (fun clause => [clause]) sameClause)
    | false =>
      refine .bind (ih bound bound' (by omega) further further') fun rest rest' sameRest => ?_
      exact .pure (congrArg₂ List.cons sameClause sameRest)

/-- A whole chain runs in lockstep if its operators and its operands do. -/
theorem operatorChain_steps (operators : c.Steps n 1 View.plain operator operator)
    (term : c.Steps n 1 seen p q) (last : c.Steps n 1 seen s t) :
    c.Steps n 1 (fun view => Located.view view (OperatorChain.view view (seen view)))
      (operatorChain p s operator) (operatorChain q t operator) := by
  have clauses : c.Steps n 0 (fun view => List.map (Clause.view view (seen view)))
        (clauses p s operator) (clauses q t operator) :=
    .limited Correspondence.Steps.size_lt_repetitionLimit
      fun m bound bound' within enough enough' =>
      clausesUpTo_steps operators term last m bound bound' within enough enough'
  have flat : c.Steps n 1 (fun view (found : α × List (Clause ω α)) =>
      (seen view found.1, found.2.map (Clause.view view (seen view))))
      (do
        let left ← p
        return (left, ← Grammar.clauses p s operator))
      (do
        let left ← q
        return (left, ← Grammar.clauses q t operator)) :=
    .andThen term fun _ _ sameLeft => .bind clauses fun _ _ same => .pure (Prod.ext sameLeft same)
  refine .located (.andThen flat.trackNewline ?_)
  rintro ⟨⟨first, following⟩, crossed⟩ ⟨⟨first', following'⟩, crossed'⟩ same
  simp only [Correspondence.Same, Prod.mk.injEq] at same
  exact .pure (by simp [OperatorChain.view, same])

end Chain

/-- A chain of operators runs in lockstep if its operands do. -/
theorem chainExpression_steps {p q s t : Parser Expression} (term : c.Steps n 1 Expression.view p q)
    (last : c.Steps n 1 Expression.view s t) :
    c.Steps n 1 Expression.view (chainExpression p s) (chainExpression q t) := by
  refine .andThen (operatorChain_steps infixOperator_steps (application_steps term) last) ?_
  rintro ⟨span, first, following, layout⟩ ⟨span', first', following', layout'⟩ same
  simp only [Correspondence.Same, Located.view, OperatorChain.view, Located.mk.injEq,
    OperatorChain.mk.injEq] at same
  obtain ⟨sameSpan, sameFirst, sameFollowing, rfl⟩ := same
  match following, following', sameFollowing with
  | [], [], _ => exact .pure sameFirst
  | _ :: _, _ :: _, sameFollowing =>
    refine .pure ?_
    simp only [Correspondence.Same, Expression.view_mk, ExpressionNode.view, sameSpan, sameFirst,
      sameFollowing]

/-! ## Conditionals -/

/-- The word and the comments after it run in lockstep. -/
theorem elseKeyword_steps : c.Steps n 1 View.comments elseKeyword elseKeyword :=
  .andThen (.expecting _ (.keyword "else")) fun _ _ _ => .whitespace

/-- An arrow and the comments on both sides of it run in lockstep. -/
theorem paddedArrow_steps :
    c.Steps n 1 (fun view => Commented.view view (Token.view view)) paddedArrow paddedArrow :=
  .padded (.token (by decide) _)

section Over

variable {p q : Parser Expression} (expression : c.Steps (n - 1) 1 Expression.view p q)

include expression

/-- A condition and its body run in lockstep. -/
theorem ifClause_steps :
    c.Steps n 1 (fun view => IfClause.view view (Expression.view view)) (ifClause p)
      (ifClause q) := by
  refine .follow (.attempt (.keyword "if")) fun _ _ _ =>
    .bind .whitespace fun _ _ samePreCondition => ?_
  refine .bind expression.weaken fun _ _ sameCondition =>
    .bind .whitespace fun _ _ samePostCondition => ?_
  refine .bind (.weaken (.keyword "then")) fun _ _ _ => .bind .whitespace fun _ _ samePreBody => ?_
  refine .bind expression.weaken fun _ _ sameBody =>
    .bind .whitespace fun _ _ samePostBody => .pure ?_
  simp [IfClause.view, samePreCondition, sameCondition, samePostCondition, samePreBody,
    sameBody, samePostBody]

/-- A further condition runs in lockstep. -/
theorem elseIfClause_steps :
    c.Steps (n - 1) 1 (fun view => Commented.view view (IfClause.view view (Expression.view view)))
      (elseIfClause p) (elseIfClause q) := by
  refine .attempt (.andThen elseKeyword_steps fun comments comments' sameComments => ?_)
  refine .weaken (.andThen (ifClause_steps (expression.mono (by omega)))
      fun clause clause' same => .pure ?_)
  simp [Commented.pre, sameComments, same]

/-- A conditional runs in lockstep. -/
theorem conditional_steps : c.Steps n 1 Expression.view (conditional p) (conditional q) := by
  have elseIf := elseIfClause_steps expression
  refine expressionOf_steps (.follow (ifClause_steps expression) fun first first' sameFirst => ?_)
  refine .bind elseIf.many fun rest rest' sameRest => .bind elseKeyword_steps.weaken
    fun comments comments' same => ?_
  refine .bind expression.weaken fun final final' sameFinal => .pure ?_
  simp only [Correspondence.Same, expressionNodeView, ExpressionNode.view, Commented.view,
    Commented.pre, sameFirst, same, sameFinal, View.comments_nil]
  exact congrArg (ExpressionNode.conditional _ · _) sameRest

/-! ## Functions and case distinctions -/

/-- An anonymous function runs in lockstep. -/
theorem lambda_steps : c.Steps n 1 Expression.view (lambda p) (lambda q) := by
  have parts : c.Steps n 1 (fun view (found : List (Commented Pattern) × Comments × Expression) =>
      (found.1.map (Commented.view view (Pattern.view view)), view.comments found.2.1,
        found.2.2.view view))
      (do
        let _ ← expecting "an anonymous function" (token .backslash "'\\'")
        let arguments ← spaced patternTerm
        if arguments.isEmpty then
          fail ["an argument pattern"]
        else
          let arrow ← paddedArrow
          return (arguments, arrow.before ++ arrow.after, ← p))
      (do
        let _ ← expecting "an anonymous function" (token .backslash "'\\'")
        let arguments ← spaced patternTerm
        if arguments.isEmpty then
          fail ["an argument pattern"]
        else
          let arrow ← paddedArrow
          return (arguments, arrow.before ++ arrow.after, ← q)) := by
    refine .follow (.expecting _ (.token (by decide) _)) fun _ _ _ => ?_
    refine .bind (spaced_steps patternTerm_steps) fun arguments arguments' sameArguments => ?_
    match arguments, arguments', sameArguments with
    | [], [], _ => exact .fail _
    | first :: rest, first' :: rest', sameArguments =>
      refine .weaken (.andThen paddedArrow_steps fun arrow arrow' sameArrow => ?_)
      refine .weaken (.andThen expression fun body body' sameBody => .pure ?_)
      obtain ⟨sameBefore, -, sameAfter⟩ := Commented.mk.inj sameArrow
      refine Prod.ext sameArguments (Prod.ext ?_ sameBody)
      simp [sameBefore, sameAfter]
  refine expressionOf_steps (.andThen parts.trackNewline ?_)
  rintro ⟨⟨arguments, comments, body⟩, multiline⟩ ⟨⟨arguments', comments', body'⟩, multiline'⟩ same
  exact .pure (by simpa [expressionNodeView, ExpressionNode.view, and_assoc] using same)

/-- A branch runs in lockstep, if the comments read before it are seen alike. -/
theorem branch_steps {leading leading' : Comments}
    (sameLeading : c.Same View.comments leading leading') :
    c.Steps (n - 1) 1 (fun view => Located.view view (Branch.view view (Expression.view view)))
      (branch p leading) (branch q leading') := by
  have head : c.Steps (n - 1) 1 (fun view (found : Comments × Pattern × Commented Token) =>
      (view.comments found.1, found.2.1.view view, found.2.2.view view (Token.view view)))
        branchHead branchHead := by
    refine .attempt (.bind .whitespace fun comments comments' sameComments =>
        .bind .aligned fun _ _ _ => ?_)
    refine .andThen pattern_steps fun pattern pattern' samePattern => ?_
    refine .weaken (.andThen paddedArrow_steps fun arrow arrow' sameArrow => .pure ?_)
    exact Prod.ext sameComments (Prod.ext samePattern sameArrow)
  refine .andThen head ?_
  rintro ⟨comments, pattern, arrow⟩ ⟨comments', pattern', arrow'⟩ same
  obtain ⟨sameComments, sameRest⟩ := Prod.mk.inj same
  obtain ⟨samePattern, sameArrow⟩ := Prod.mk.inj sameRest
  obtain ⟨sameBefore, -, sameAfter⟩ := Commented.mk.inj sameArrow
  refine .bind expression.weaken fun body body' sameBody =>
    .bind .position fun stop stop' sameStop => .pure ?_
  have sameStart :
      c.leftView.position pattern.span.start = c.rightView.position pattern'.span.start := by
    have sameSpan := congrArg (fun pattern => pattern.span.start) samePattern
    rwa [Pattern.view_eq, Pattern.view_eq] at sameSpan
  simp [Branch.view, View.span, sameLeading, sameComments, samePattern, sameBefore, sameAfter,
    sameBody, sameStart, sameStop]

/-- A case distinction runs in lockstep. -/
theorem caseDistinction_steps :
    c.Steps n 1 Expression.view (caseDistinction p) (caseDistinction q) := by
  refine expressionOf_steps (.follow (.attempt (.keyword "case")) fun _ _ _ => ?_)
  refine .bind expression.padded.trackNewline.weaken ?_
  rintro ⟨subject, multiline⟩ ⟨subject', multiline'⟩ sameSubject
  refine .bind (.weaken (.keyword "of")) fun _ _ _ =>
    .bind .whitespace fun leading leading' sameLeading => ?_
  have branches : c.Steps (n - 1) 1
      (fun view => List.map (Located.view view (Branch.view view (Expression.view view))))
      (withReference do
        let first ← branch p leading
        return first :: (← many (branch p [])))
      (withReference do
        let first ← branch q leading'
        return first :: (← many (branch q []))) := by
    refine .withReference (.andThen (branch_steps expression sameLeading)
        fun first first' sameFirst => ?_)
    have further := branch_steps expression (show c.Same View.comments [] [] by simp)
    exact .bind further.many fun rest rest' sameRest =>
      .pure (congrArg₂ List.cons sameFirst sameRest)
  refine .bind branches.weaken fun found found' same => .pure ?_
  obtain ⟨sameValue, sameMultiline⟩ := Prod.mk.inj sameSubject
  obtain rfl : multiline = multiline' := sameMultiline
  exact congrArg₂ (ExpressionNode.caseOf · multiline ·) sameValue same

end Over

/-! ## Declarations -/

/-- What is defined takes arguments: it is a name or an operator. -/
def takesArguments {π : Type} : PatternNode π → Bool
  | .name _ | .operator _ => true
  | _ => false

/-- What is seen of a node takes arguments where the node does. -/
theorem takesArguments_view {π ρ : Type} (view : View) (inner : π → ρ) (node : PatternNode π) :
    takesArguments (node.view view inner) = takesArguments node := by
  cases node <;> rfl

/-- The head of a definition, with the decision about arguments as a test. -/
theorem definitionHead_eq :
    definitionHead = expecting "the definition of a variable (x = ...)" (choice [attempt
      patternTerm, patternOf do return .operator (← parenthesizedOperator)] >>= fun defined =>
      if takesArguments defined.node then spaced patternTerm >>= fun arguments =>
        pure (defined, arguments)
      else pure (defined, [])) := by
  unfold definitionHead
  congr 2
  funext defined
  cases defined.node <;> rfl

/-- What is defined and its arguments run in lockstep. -/
theorem definitionHead_steps :
    c.Steps n 1 (fun view (found : Pattern × List (Commented Pattern)) =>
      (found.1.view view, found.2.map (Commented.view view (Pattern.view view)))) definitionHead
        definitionHead := by
  have symbol : c.Steps n 1 Pattern.view (patternOf do return .operator (← parenthesizedOperator))
      (patternOf do return .operator (← parenthesizedOperator)) :=
    patternOf_steps (.andThen parenthesizedOperator_steps fun _ _ same =>
        .pure (congrArg PatternNode.operator same))
  rw [definitionHead_eq]
  refine .expecting _ (.andThen (.choice (.cons patternTerm_steps.attempt (.cons symbol .nil))) ?_)
  intro defined defined' same
  have sameTakes : takesArguments defined.node = takesArguments defined'.node := by
    have seen := congrArg (fun pattern => takesArguments pattern.node) same
    rwa [Pattern.view_eq, Pattern.view_eq, takesArguments_view, takesArguments_view] at seen
  rw [sameTakes]
  split
  · exact .bind (spaced_steps patternTerm_steps) fun _ _ sameArguments =>
      .pure (Prod.ext same sameArguments)
  · exact .pure (Prod.ext same rfl)

/-- A type signature runs in lockstep. -/
theorem signature_steps : c.Steps n 1 Signature.view signature signature := by
  have head : c.Steps n 1 (fun view (found : AnnotatedName × Commented Token) =>
      (found.1, found.2.view view (Token.view view))) signatureHead signatureHead := by
    have value : c.Steps n 1 View.plain (do return AnnotatedName.value (← lowerName))
        (do return AnnotatedName.value (← lowerName)) :=
      .andThen lowerName_steps fun _ _ same => .pure (congrArg AnnotatedName.value same)
    have operator :
        c.Steps n 1 View.plain (do return AnnotatedName.operator (← parenthesizedOperator))
          (do return AnnotatedName.operator (← parenthesizedOperator)) :=
      .andThen parenthesizedOperator_steps fun _ _ same =>
        .pure (congrArg AnnotatedName.operator same)
    refine .attempt (.andThen (.choice (.cons value (.cons operator .nil)))
        fun name name' sameName => ?_)
    refine .weaken (.andThen (.padded (.token (by decide) _)) fun colon colon' sameColon => ?_)
    exact .pure (Prod.ext sameName sameColon)
  refine .andThen head ?_
  rintro ⟨name, colon⟩ ⟨name', colon'⟩ same
  obtain ⟨sameName, sameColon⟩ := Prod.mk.inj same
  obtain ⟨sameBefore, -, sameAfter⟩ := Commented.mk.inj sameColon
  refine .weaken (.andThen typeExpression_steps fun type type' sameType => .pure ?_)
  obtain rfl : name = name' := sameName
  simp [Signature.view, Commented.pre, Commented.post, sameBefore, sameAfter, sameType]

/-- What is seen of the entries of a `let`. -/
def letEntriesView (view : View) :
    List (Located (LetEntry Expression)) → List (Located (LetEntry Expression)) :=
  Located.viewAll view (LetEntry.view? view (Expression.view view))

/-- The comments at a place in a `let` run in lockstep. -/
theorem letComments_steps :
    c.Steps n 0 letEntriesView letComments letComments := by
  refine .bind (Correspondence.Steps.whitespace).located fun comments comments' same => .pure ?_
  obtain ⟨sameSpan, sameComments⟩ := Located.mk.inj same
  have entries : ∀ (view : View) (found : Located Comments),
        letEntriesView view (found.value.map fun comment => ⟨found.span, .comment comment⟩) =
        (view.comments found.value).map fun comment =>
        ⟨view.span found.span, .comment comment⟩ := by
    intro view found
    refine Located.viewAll_comments ?_ found.span found.value
    exact fun comment => rfl
  rw [Correspondence.Same, entries, entries, sameSpan, sameComments]

section Over

variable {p q : Parser Expression} (expression : c.Steps (n - 1) 1 Expression.view p q)

include expression

/-- A definition runs in lockstep. -/
theorem definition_steps :
    c.Steps n 1 (fun view => Definition.view view (Expression.view view)) (definition p)
      (definition q) := by
  refine .withReference (.follow definitionHead_steps ?_)
  rintro ⟨defined, arguments⟩ ⟨defined', arguments'⟩ same
  obtain ⟨sameDefined, sameArguments⟩ := Prod.mk.inj same
  refine .weaken (.andThen (.padded (.token (by decide) _)) fun equals equals' sameEquals => ?_)
  obtain ⟨sameBefore, -, sameAfter⟩ := Commented.mk.inj sameEquals
  refine .weaken (.andThen expression fun body body' sameBody => .pure ?_)
  show Definition.mk _ _ _ _ = Definition.mk _ _ _ _
  rw [sameDefined, sameBody, View.comments_append, View.comments_append, sameBefore, sameAfter]
  exact congrArg (Definition.mk _ · _ _) sameArguments

/-- A type signature or a definition runs in lockstep. -/
theorem declaration_steps :
    c.Steps n 1 (fun view => Declaration.view view (Expression.view view)) (declaration p)
      (declaration q) := by
  refine .choice (.cons ?_ (.cons ?_ .nil))
  · exact .andThen signature_steps fun _ _ same => .pure (congrArg Declaration.signature same)
  · exact .andThen (definition_steps expression) fun _ _ same =>
      .pure (congrArg Declaration.definition same)

/-- A declaration in a `let` and the comments after it run in lockstep. -/
theorem letBlock_steps :
    c.Steps n 1 letEntriesView (letBlock p) (letBlock q) := by
  refine .bind .aligned fun _ _ _ => ?_
  have entry : c.Steps n 1 (fun view => Located.view view (LetEntry.view? view
        (Expression.view view))) (located do return .declaration (← located (declaration p)))
        (located do return .declaration (← located (declaration q))) :=
    .located (.andThen (declaration_steps expression).located fun _ _ same =>
      .pure (congrArg (fun found => some (LetEntry.declaration found)) same))
  refine .andThen entry fun found found' sameEntry =>
    .bind letComments_steps fun comments comments' same => .pure ?_
  obtain ⟨sameSpan, sameValue⟩ := Located.mk.inj sameEntry
  simp only [Correspondence.Same, letEntriesView, Located.viewAll_cons] at same ⊢
  rw [sameSpan, sameValue, same]

/-- A `let` runs in lockstep. -/
theorem letExpression_steps : c.Steps n 1 Expression.view (letExpression p) (letExpression q) := by
  have block := letBlock_steps (expression.mono (Nat.sub_le (n - 1) 1))
  have blocks : c.Steps (n - 1) 1 (fun view => List.map (letEntriesView view))
      (withReference do
        let first ← letBlock p
        return first :: (← many (letBlock p)))
      (withReference do
        let first ← letBlock q
        return first :: (← many (letBlock q))) :=
    .withReference (.andThen block fun _ _ sameFirst => .bind block.many fun _ _ sameRest =>
      .pure (congrArg₂ List.cons sameFirst sameRest))
  refine expressionOf_steps (.follow (.attempt (.keyword "let")) fun _ _ _ => ?_)
  refine .bind letComments_steps fun leading leading' sameLeading => ?_
  refine .bind blocks.weaken fun found found' sameFound => .bind (.weaken (.keyword "in"))
    fun _ _ _ => ?_
  refine .bind .whitespace fun comments comments' sameComments => ?_
  refine .bind expression.weaken fun body body' sameBody => .pure ?_
  simp only [Correspondence.Same, letEntriesView] at sameLeading sameFound sameComments sameBody
  simp only [Correspondence.Same, expressionNodeView, ExpressionNode.view, Located.viewAll_append,
    Located.viewAll_flatten, sameLeading, sameFound, sameComments, sameBody]

/-! ## Expressions -/

/-- The expressions that extend as far right as possible run in lockstep. -/
theorem openEnded_steps : List.Forall₂ (c.Steps n 1 Expression.view) (openEnded p) (openEnded q) :=
  .cons (letExpression_steps expression) (.cons (caseDistinction_steps expression)
    (.cons (conditional_steps expression) (.cons (lambda_steps expression) .nil)))

/-- An expression over the expressions and terms inside it runs in lockstep. -/
theorem expressionOver_steps {s t : Parser Expression} (term : c.Steps n 1 Expression.view s t) :
    c.Steps n 1 Expression.view (expressionOver p s) (expressionOver q t) := by
  have chain := chainExpression_steps term (.choice (openEnded_steps expression))
  exact .expecting _ (.choice (List.rel_append (openEnded_steps expression) (.cons chain .nil)))

end Over

/-- At every level that exceeds the tokens left expressions and terms run in lockstep. -/
theorem within_steps (m bound bound' : Nat) (enough : m < bound) (enough' : m < bound') :
    c.Steps m 1 Expression.view (Nested.within bound).expression (Nested.within bound').expression ∧
      c.Steps m 1 Expression.view (Nested.within bound).term (Nested.within bound').term := by
  induction m generalizing bound bound' with
  | zero => exact ⟨.of_none, .of_none⟩
  | succ m ih =>
    obtain ⟨bound, rfl, further⟩ := Correspondence.Steps.exists_succ_of_lt enough
    obtain ⟨bound', rfl, further'⟩ := Correspondence.Steps.exists_succ_of_lt enough'
    obtain ⟨expression, term⟩ := ih bound bound' further further'
    have outer : c.Steps (m + 1) 1 Expression.view _ _ := termOver_steps expression term
    exact ⟨expressionOver_steps expression outer, outer⟩

/-- An expression runs in lockstep. -/
theorem expression_steps : c.Steps n 1 Expression.view expression expression :=
  .limited Correspondence.Steps.size_lt_nestingLimit fun m bound bound' _ enough enough' =>
    (within_steps m bound bound' enough enough').1

/-- A term runs in lockstep. -/
theorem term_steps : c.Steps n 1 Expression.view term term :=
  .limited Correspondence.Steps.size_lt_nestingLimit fun m bound bound' _ enough enough' =>
    (within_steps m bound bound' enough enough').2

end Marginalia.Grammar
