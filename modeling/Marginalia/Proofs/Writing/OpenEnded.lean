import Marginalia.Proofs.Writing.Declaration

/-!
# Reading written conditionals, functions, distinctions and declarations

The expressions that extend as far right as possible are read back from their pieces, if the
expressions inside them are. Each is told by its first word, and on one line no second branch or
declaration is ever aligned with the first one.
-/

namespace Marginalia

open Marginalia.Parser Marginalia.Grammar

open Piece (Apart Opening joinFirst opensPattern opensTerm)

variable {input : Input}

/-- A word directly ahead is read. -/
theorem keyword_leads {word : String} {rest : List Piece} :
    Leads input (keyword word) (joinFirst (.keyword word :: rest)) rest fun _ => True :=
  spelled_leads rfl rfl

/-- A word is refused where it is not. -/
theorem keyword_refuses {word : String} {before : List Piece} (avoids : Avoids
      (fun piece => piece.kind == .keyword && piece.lexeme == Text.ofString word) before) :
    Refuses input (keyword word) before :=
  spelled_refuses (by decide) avoids

/-- An arrow is read. -/
theorem paddedArrow_leads (rest : List Piece) :
    Leads input paddedArrow (.mark .arrow :: rest) (joinFirst rest) fun found => found.before = [] ∧
    found.after = [] := by
  refine (mark_leads .arrow).padded.imp ?_
  rintro _ ⟨_, rfl, -⟩
  exact ⟨rfl, rfl⟩

/-- The word `else` is read. -/
theorem elseKeyword_leads (rest : List Piece) :
    Leads input elseKeyword (joinFirst (.keyword "else" :: rest)) (joinFirst rest) (· = []) := by
  apply keyword_leads.expecting.bind
  intro _ _
  exact whitespace_leads

/-- No further condition follows where the last branch begins otherwise. -/
theorem elseIfClause_refuses {expression : Parser Expression} {rest : List Piece}
    (avoids : Avoids (fun piece =>
      piece.kind == .keyword && piece.lexeme == Text.ofString "if") (joinFirst rest)) :
    Refuses input (elseIfClause expression) (joinFirst (.keyword "else" :: rest)) := by
  refine Fails.attempt ((elseKeyword_leads rest).fails fun _ _ => ?_)
  have noClause : Refuses input (ifClause expression) (joinFirst rest) :=
    (Fails.attempt (keyword_refuses avoids).fails).bind
  exact noClause.bind.fails

/-- Only a conditional begins with the word `if`. -/
theorem Expression.Normal.not_if {e : Expression} (normal : e.Normal)
    (notConditional : e.node.isConditional = false) (rest : List Piece) :
    Avoids (fun piece => piece.kind == .keyword && piece.lexeme == Text.ofString "if")
      (joinFirst (e.pieces ++ rest)) := by
  obtain ⟨span, node⟩ := e
  obtain ⟨-, first, more, same, begins⟩ := normal.writable.opening
  have lacks :
      (first.join.kind == .keyword && first.join.lexeme == Text.ofString "if") = false := by
    cases node with
    | conditional => cases notConditional
    | caseOf | letIn | lambda =>
      obtain rfl := beq_iff_eq.mp begins
      decide
    | _ =>
      have opens : first.opensTerm = true := ExpressionNode.opensTerm_of_beginsWith rfl begins
      obtain ⟨joined, kind, lexeme⟩ := first
      cases kind <;> first | rfl | cases opens
  rw [same]
  exact .first lacks _

/-- The pieces of a further condition and its body. -/
def elseIfPieces (clause : Expression × Expression) : List Piece :=
  .keyword "else" :: (IfClause.plain clause).pieces Expression.pieces

/-- The pieces of further conditions, of the last branch and of what follows. -/
def branchPieces (final : Expression) (rest : List Piece)
    (clauses : List (Expression × Expression)) : List Piece :=
  clauses.flatMap elseIfPieces ++ .keyword "else" :: (final.pieces ++ rest)

/-- A further condition stands before the other branches. -/
theorem branchPieces_cons (final : Expression) (rest : List Piece)
    (clause : Expression × Expression) (others : List (Expression × Expression)) :
    branchPieces final rest (clause :: others) = elseIfPieces clause ++
      branchPieces final rest others :=
  List.append_assoc _ _ _

/-- Every branch begins with the word `else`, be it a further condition or the last one. -/
theorem branchPieces_else (final : Expression) (rest : List Piece)
    (clauses : List (Expression × Expression)) :
    ∃ more, branchPieces final rest clauses = .keyword "else" :: more := by
  cases clauses with
  | nil => exact ⟨_, rfl⟩
  | cons clause others => exact ⟨_, rfl⟩

/-- What is written of a conditional without comments. -/
theorem pieces_plainConditional (first : Expression × Expression)
    (others : List (Expression × Expression)) (final : Expression) (rest : List Piece) :
    (ExpressionNode.conditional (.plain first) (others.map fun clause => .alone (.plain clause))
      (.alone final)).pieces Expression.pieces ++ rest =
      (IfClause.plain first).pieces Expression.pieces ++ branchPieces final rest others := by
  rw [ExpressionNode.pieces, List.flatMap_map, branchPieces, List.append_assoc, List.append_assoc]
  rfl

section Over

variable {expression : Parser Expression} {bound : Nat}
  (recovers : RecoversExpressions input expression bound)

include recovers

/-! ## Conditionals -/

/-- A condition and its body are read back. -/
theorem ifClause_leads {clause : Expression × Expression} (normalCondition : clause.1.Normal)
    (normalBody : clause.2.Normal)
    (small : ((IfClause.plain clause).pieces Expression.pieces).length < bound + 1)
    (rest : List Piece) :
    Leads input (ifClause expression)
      (joinFirst ((IfClause.plain clause).pieces Expression.pieces ++ .keyword "else" :: rest))
      (joinFirst (.keyword "else" :: rest)) fun found => found.view .placeless (Expression.view
      .placeless) = (IfClause.plain clause).view .placeless (Expression.view .placeless) := by
  have pieces : (IfClause.plain clause).pieces Expression.pieces =
      .keyword "if" :: (clause.1.pieces ++ .keyword "then" :: clause.2.pieces) := rfl
  rw [pieces, List.length_cons, List.length_append, List.length_cons] at small
  rw [pieces, List.cons_append, List.append_assoc, List.cons_append]
  have condition := recovers.leads clause.1 normalCondition (by omega)
    (.keyword "then" :: (clause.2.pieces ++ .keyword "else" :: rest)) (.first rfl rfl _)
  have body := recovers.leads clause.2 normalBody (by omega) (.keyword "else" :: rest)
    (.first rfl rfl _)
  apply keyword_leads.attempt.bind
  intro _ _
  apply whitespace_leads.bind
  rintro _ rfl
  apply condition.bind
  intro found same
  apply whitespace_leads.bind
  rintro _ rfl
  apply keyword_leads.bind
  intro _ _
  apply whitespace_leads.bind
  rintro _ rfl
  apply body.bind
  intro found' same'
  apply whitespace_leads.bind
  rintro _ rfl
  refine .pure ?_
  simp only [IfClause.view, IfClause.plain, Commented.view_placeless, Commented.map,
    Commented.alone]
  rw [same, same']

/-- A further condition and its body are read back. -/
theorem elseIfClause_leads {clause : Expression × Expression} (normalCondition : clause.1.Normal)
    (normalBody : clause.2.Normal)
    (small : ((IfClause.plain clause).pieces Expression.pieces).length < bound + 1)
    (rest : List Piece) :
    Leads input (elseIfClause expression) (joinFirst (.keyword "else" ::
      (IfClause.plain clause).pieces Expression.pieces ++ .keyword "else" :: rest))
      (joinFirst (.keyword "else" :: rest)) fun found =>
        found.view .placeless (IfClause.view .placeless (Expression.view .placeless)) =
          .alone ((IfClause.plain clause).view .placeless (Expression.view .placeless)) := by
  apply Leads.attempt
  apply (elseKeyword_leads _).bind
  rintro _ rfl
  apply (ifClause_leads recovers normalCondition normalBody small rest).bind
  intro found same
  refine .pure ?_
  rw [← same]
  rfl

/-- Conditionals are read back. -/
theorem conditional_leads {first : Expression × Expression}
    {others : List (Expression × Expression)} {final : Expression}
    (normal : ∀ clause ∈ first :: others, clause.1.Normal ∧ clause.2.Normal)
    (normalFinal : final.Normal) (notConditional : final.node.isConditional = false)
    (small : ((IfClause.plain first).pieces Expression.pieces ++ branchPieces final
      [] others).length < bound + 1) {rest : List Piece}
    (follows : Follows Piece.closesExpression rest) (span : Span) :
    Leads input (conditional expression) (joinFirst ((IfClause.plain first).pieces
      Expression.pieces ++ branchPieces final rest others)) rest fun found =>
        found.view .placeless = Expression.view .placeless ⟨span, .conditional (.plain first)
            (others.map fun clause => .alone (.plain clause)) (.alone final)⟩ := by
  rw [branchPieces, List.length_append, List.length_append, List.length_cons,
    List.append_nil] at small
  have firstClause : Leads input (ifClause expression) (joinFirst
        ((IfClause.plain first).pieces Expression.pieces ++ branchPieces final rest others))
        (joinFirst (branchPieces final rest others)) fun found =>
        found.view .placeless (Expression.view .placeless) =
        (IfClause.plain first).view .placeless (Expression.view .placeless) := by
    obtain ⟨more, same⟩ := branchPieces_else final rest others
    rw [same]
    exact ifClause_leads recovers (normal first (.head _)).1 (normal first (.head _)).2
      (by omega) more
  have otherClauses : Leads input (many (elseIfClause expression)) (joinFirst
      (branchPieces final rest others)) (joinFirst (branchPieces final rest [])) fun found =>
        found.map (Commented.view .placeless
            (IfClause.view .placeless (Expression.view .placeless))) = others.map fun clause =>
          .alone ((IfClause.plain clause).view .placeless (Expression.view .placeless)) := by
    refine @Leads.repeated _ _ _ input _ _ _ others
      (fun clauses => joinFirst (branchPieces final rest clauses)) ?_ ?_ ?_
    · intro clause more suffix
      have member : clause ∈ others := suffix.subset (.head _)
      have short : (elseIfPieces clause).length ≤ (others.flatMap elseIfPieces).length :=
        Piece.length_le_flatMap_of_mem elseIfPieces member
      have normals := normal clause (.tail _ member)
      obtain ⟨behind, same⟩ := branchPieces_else final rest more
      rw [branchPieces_cons, same]
      rw [elseIfPieces, List.length_cons] at short
      exact elseIfClause_leads recovers normals.1 normals.2 (by omega) behind
    · intro clause more _
      rw [branchPieces_cons, Piece.length_joinFirst, Piece.length_joinFirst, List.length_append]
      exact Nat.lt_add_of_pos_left (Nat.succ_pos _)
    · exact elseIfClause_refuses (normalFinal.not_if notConditional rest)
  have last := recovers.leads final normalFinal (by omega) rest follows
  refine expressionOf_leads ?_ span
  apply firstClause.bind
  intro found same
  apply otherClauses.bind
  intro found' same'
  apply (elseKeyword_leads _).bind
  rintro _ rfl
  apply last.bind
  intro found'' same''
  refine .pure ?_
  simp only [ExpressionNode.seen, ExpressionNode.view]
  rw [same, same', List.map_map, Commented.view_placeless, Commented.pre, Commented.map, same'']
  rfl

/-! ## Functions -/

/-- Anonymous functions are read back. -/
theorem lambda_leads {arguments : List Pattern} {body : Expression}
    (normalArguments : ∀ p ∈ arguments, p.Normal) (terms : ∀ p ∈ arguments, p.node.isTerm = true)
    (some : arguments ≠ []) (normal : body.Normal) (small : body.pieces.length < bound)
    {rest : List Piece} (follows : Follows Piece.closesExpression rest) (span : Span) :
    Leads input (lambda expression) (joinFirst (Piece.lambda :: (arguments.flatMap Pattern.pieces ++
      .mark .arrow :: (body.pieces ++ rest)))) rest fun found => found.view .placeless =
      Expression.view .placeless ⟨span, .lambda (arguments.map .alone) [] body false⟩ := by
  have contents : Leads input (do
        let _ ← expecting "an anonymous function" (token .backslash "'\\'")
        let arguments ← spaced patternTerm
        if arguments.isEmpty then
          fail ["an argument pattern"]
        else
          let arrow ← paddedArrow
          return (arguments, arrow.before ++ arrow.after, ← expression))
      (joinFirst (Piece.lambda ::
          (arguments.flatMap Pattern.pieces ++ .mark .arrow :: (body.pieces ++ rest)))) rest
      fun found => found.1.map (Commented.map (Pattern.view .placeless)) =
        (arguments.map fun p => .alone (p.view .placeless)) ∧ found.2.1 = [] ∧
          found.2.2.view .placeless = body.view .placeless := by
    apply (token_leads rfl).expecting.bind
    intro _ _
    apply (spacedPatterns_leads normalArguments terms rfl _).bind
    intro found same
    have notEmpty : ¬ found.isEmpty = true := by
      intro isEmpty
      obtain rfl := List.isEmpty_iff.mp isEmpty
      exact some (List.map_eq_nil_iff.mp same.symm)
    rw [if_neg notEmpty]
    apply (paddedArrow_leads _).bind
    rintro ⟨_, _, _⟩ ⟨rfl, rfl⟩
    apply (recovers.leads body normal small rest follows).bind
    intro found' same'
    exact .pure ⟨same, rfl, same'⟩
  refine expressionOf_leads ?_ span
  apply contents.trackNewline.bind
  rintro _ ⟨⟨found, _, found'⟩, rfl, same, rfl, same'⟩
  refine .pure ?_
  simp only [ExpressionNode.seen, ExpressionNode.view, Commented.view_placeless, map_map_alone]
  rw [same, same']

/-! ## Case distinctions -/

/-- A branch is read back. -/
theorem branch_leads {pattern : Pattern} {body : Expression} (normalPattern : pattern.Normal)
    (normal : body.Normal) (small : body.pieces.length < bound) {rest : List Piece}
    (follows : Follows Piece.closesExpression rest) :
    LeadsFlush input (branch expression [])
      (joinFirst (pattern.pieces ++ .mark .arrow :: (body.pieces ++ rest))) rest fun found =>
      found.value.view .placeless (Expression.view .placeless) = Branch.view .placeless
      (Expression.view .placeless) ⟨[], pattern, [], [], body⟩ := by
  have head : LeadsFlush input branchHead (joinFirst (pattern.pieces ++ .mark .arrow ::
        (body.pieces ++ rest))) (joinFirst (body.pieces ++ rest)) fun found => found.1 = [] ∧
      found.2.1.view .placeless = pattern.view .placeless ∧ found.2.2.before = [] ∧
      found.2.2.after = [] := by
    refine LeadsFlush.attempt (whitespace_tells.leadsFlush (LeadsFlush.aligned (Leads.flush ?_)))
    apply (pattern_recovers.anywhere normalPattern (.first rfl rfl _)).bind
    intro found same
    apply (paddedArrow_leads _).bind
    rintro arrow ⟨before, after⟩
    exact .pure ⟨rfl, same, before, after⟩
  apply head.bind
  rintro ⟨_, found, _, _, _⟩ ⟨rfl, same, rfl, rfl⟩
  apply (recovers.leads body normal small rest follows).bind
  intro found' same'
  apply position_leads.bind
  intro stop _
  refine .pure ?_
  simp only [Branch.view]
  rw [same, same']
  rfl

omit recovers in
/-- No branch is where no pattern is. -/
theorem branch_refuses {rest : List Piece} (avoids : Avoids opensPattern (joinFirst rest)) :
    Refuses input (branch expression []) rest := by
  have noPattern : Refuses input pattern (joinFirst rest) :=
    pattern_recovers.refuses (Nat.succ_pos _) _ avoids
  have noHead : Refuses input branchHead rest :=
    Fails.attempt (whitespace_leads.fails fun _ _ => (Refuses.aligned noPattern.bind).fails)
  exact noHead.bind

/-- Case distinctions with one branch are read back. -/
theorem caseDistinction_leads {subject body : Expression} {pattern : Pattern}
    (normalSubject : subject.Normal) (normalPattern : pattern.Normal) (normalBody : body.Normal)
    (smallSubject : subject.pieces.length < bound) (smallBody : body.pieces.length < bound)
    {rest : List Piece} (follows : Follows Piece.closesExpression rest) (span place : Span) :
    Leads input (caseDistinction expression) (joinFirst (.keyword "case" :: (subject.pieces ++
      .keyword "of" :: (pattern.pieces ++ .mark .arrow :: (body.pieces ++ rest))))) rest
      fun found =>
      found.view .placeless = Expression.view .placeless
        ⟨span, .caseOf (.alone subject) false [⟨place, ⟨[], pattern, [], [], body⟩⟩]⟩ := by
  have subjectRead := recovers.leads subject normalSubject smallSubject
    (.keyword "of" :: (pattern.pieces ++ .mark .arrow :: (body.pieces ++ rest))) (.first rfl rfl _)
  have noFurther : Refuses input (branch expression []) rest := by
    refine branch_refuses (follows.avoids fun piece closes => ?_)
    obtain ⟨joined, kind, lexeme⟩ := piece
    cases kind <;> first | rfl | cases closes
  have branches : LeadsFlush input (do
        let first ← branch expression []
        return first :: (← many (branch expression [])))
      (joinFirst (pattern.pieces ++ .mark .arrow :: (body.pieces ++ rest))) rest fun found =>
        ∃ only, found = [only] ∧ only.value.view .placeless (Expression.view .placeless) =
          Branch.view .placeless (Expression.view .placeless) ⟨[], pattern, [], [], body⟩ := by
    apply (branch_leads recovers normalPattern normalBody smallBody follows).bind
    intro only same
    exact noFurther.many.leads (.pure ⟨only, rfl, same⟩)
  refine expressionOf_leads ?_ span
  apply keyword_leads.attempt.bind
  intro _ _
  apply subjectRead.padded.trackNewline.bind
  rintro _ ⟨_, rfl, found, rfl, same⟩
  apply keyword_leads.bind
  intro _ _
  apply whitespace_leads.bind
  rintro _ rfl
  apply branches.withReference.bind
  rintro _ ⟨only, rfl, sameBranch⟩
  refine .pure ?_
  simp only [ExpressionNode.seen, ExpressionNode.view, Commented.view_placeless, Commented.map,
    List.map_cons, List.map_nil, Located.view]
  rw [same, sameBranch]
  rfl

/-! ## Declarations -/

omit recovers in
/-- Without comments a `let` has none. -/
theorem letComments_leads {before : List Piece} :
    Leads input letComments before (joinFirst before) (· = []) := by
  apply whitespace_leads.located.bind
  rintro ⟨_, _⟩ rfl
  exact .pure rfl

omit recovers in
/-- No declaration follows where a word is. -/
theorem letBlock_refuses {word : String} (rest : List Piece) :
    Refuses input (letBlock expression) (joinFirst (.keyword word :: rest)) := by
  have noDeclaration : Refuses input (declaration expression) (joinFirst (.keyword word :: rest)) :=
    declaration_refuses (.first rfl rest)
  exact Refuses.aligned noDeclaration.located.bind.located.bind

omit recovers in
/-- An aligned declaration is read back as an entry. -/
theorem letBlock_leads {declared : Declaration Expression} {before rest : List Piece}
    (reads : Leads input (declaration expression) before rest fun found =>
      found.seen = declared.seen) (place inner : Span) :
    LeadsFlush input (letBlock expression) before (joinFirst rest) fun found =>
      Located.viewAll .placeless (LetEntry.view? .placeless (Expression.view .placeless)) found =
        Located.viewAll .placeless (LetEntry.view? .placeless (Expression.view .placeless))
          [⟨place, .declaration ⟨inner, declared⟩⟩] := by
  have entry : Leads input (do return LetEntry.declaration (← located (declaration expression)))
      before rest fun found =>
      ∃ inside, found = .declaration inside ∧ inside.value.seen = declared.seen := by
    apply reads.located.bind
    intro inside same
    exact .pure ⟨inside, rfl, same⟩
  refine LeadsFlush.aligned (Leads.flush ?_)
  apply entry.located.bind
  rintro ⟨_, _⟩ ⟨inside, rfl, same⟩
  apply letComments_leads.bind
  rintro _ rfl
  refine .pure ?_
  have sameView : inside.value.view .placeless (Expression.view .placeless) =
      declared.view .placeless (Expression.view .placeless) := same
  simp only [Located.viewAll, LetEntry.view?, Located.view, List.filterMap_cons, List.filterMap_nil,
    Option.map_some]
  rw [sameView]
  rfl

/-- A `let` with one declaration is read back. -/
theorem letExpression_leads {declared : Declaration Expression} {body : Expression}
    {rest : List Piece} (reads : Leads input (declaration expression)
      (joinFirst (declared.pieces Expression.pieces ++ .keyword "in" :: (body.pieces ++ rest)))
      (.keyword "in" :: (body.pieces ++ rest)) fun found => found.seen = declared.seen)
    (normal : body.Normal) (small : body.pieces.length < bound)
    (follows : Follows Piece.closesExpression rest) (span place inner : Span) :
    Leads input (letExpression expression) (joinFirst (.keyword "let" ::
      (declared.pieces Expression.pieces ++ .keyword "in" :: (body.pieces ++ rest)))) rest
      fun found => found.view .placeless = Expression.view .placeless
      ⟨span, .letIn [⟨place, .declaration ⟨inner, declared⟩⟩] [] body⟩ := by
  have blocks : LeadsFlush input (do
        let first ← letBlock expression
        return first :: (← many (letBlock expression)))
      (joinFirst (declared.pieces Expression.pieces ++ .keyword "in" :: (body.pieces ++ rest)))
      (joinFirst (.keyword "in" :: (body.pieces ++ rest))) fun found =>
        Located.viewAll .placeless (LetEntry.view? .placeless (Expression.view .placeless))
          found.flatten = Located.viewAll .placeless (LetEntry.view? .placeless
            (Expression.view .placeless)) [⟨place, .declaration ⟨inner, declared⟩⟩] := by
    apply (letBlock_leads reads place inner).bind
    intro only same
    refine (letBlock_refuses _).many.leads (.pure ?_)
    rw [← same, List.flatten_cons, List.flatten_nil, List.append_nil]
  refine expressionOf_leads ?_ span
  apply keyword_leads.attempt.bind
  intro _ _
  apply letComments_leads.bind
  rintro _ rfl
  apply blocks.withReference.bind
  intro found same
  apply keyword_leads.bind
  intro _ _
  apply whitespace_leads.bind
  rintro _ rfl
  apply (recovers.leads body normal small rest follows).bind
  intro found' same'
  refine .pure ?_
  simp only [ExpressionNode.seen, ExpressionNode.view, List.nil_append]
  rw [same, same']

end Over

/-! ## Alternatives -/

/-- Whatever extends as far right as possible begins with a word or the sign of a function. -/
theorem openEnded_refuses {expression : Parser Expression} {before : List Piece}
    (avoids : Avoids Piece.opensOpenEnded before) :
    ∀ alternative ∈ openEnded expression, Refuses input alternative before := by
  have noWord : ∀ word, Refuses input (attempt (keyword word)) before := by
    intro word
    refine Fails.attempt (keyword_refuses (avoids.imp fun piece lacks => ?_)).fails
    obtain ⟨joined, kind, lexeme⟩ := piece
    cases kind <;> first | rfl | cases lacks
  have noSign : Avoids (·.kind == .backslash) before := avoids.kind fun piece same => by
    simp [Piece.opensOpenEnded, same]
  simp only [openEnded, List.forall_mem_cons, List.not_mem_nil, false_imp_iff,
    implies_true, and_true]
  refine ⟨?_, ?_, ?_, ?_⟩
  · exact expressionOf_refuses (noWord "let").bind
  · exact expressionOf_refuses (noWord "case").bind
  · exact expressionOf_refuses (noWord "if").bind.bind
  · exact expressionOf_refuses (token_refuses (by decide) noSign).expecting.bind.trackNewline.bind

/-- What is written of a `let` with one declaration. -/
theorem ExpressionNode.pieces_plainLet (place inner : Span)
    (declared : Declaration Expression) (body : Expression) :
    (letIn [⟨place, .declaration ⟨inner, declared⟩⟩] [] body).pieces Expression.pieces =
      .keyword "let" :: (declared.pieces Expression.pieces ++ .keyword "in" :: body.pieces) := by
  rw [ExpressionNode.pieces, List.flatMap_cons, List.flatMap_nil, List.append_nil]
  rfl

/-- What is written of a case distinction with one branch. -/
theorem ExpressionNode.pieces_plainCase (subject body : Expression)
    (place : Span) (pattern : Pattern) :
    (caseOf (.alone subject) false [⟨place, ⟨[], pattern, [], [], body⟩⟩]).pieces
      Expression.pieces = .keyword "case" ::
      (subject.pieces ++ .keyword "of" :: (pattern.pieces ++ .mark .arrow :: body.pieces)) := by
  rw [ExpressionNode.pieces, List.flatMap_cons, List.flatMap_nil, List.append_nil]
  rfl

/-- What is written of an anonymous function without comments. -/
theorem ExpressionNode.pieces_plainLambda (arguments : List Pattern) (body : Expression) :
    (lambda (arguments.map .alone) [] body false).pieces Expression.pieces =
      Piece.lambda :: (arguments.flatMap Pattern.pieces ++ .mark .arrow :: body.pieces) := by
  rw [ExpressionNode.pieces, flatMap_alone]

section OpenEnded

variable {expression : Parser Expression} {bound : Nat}
  (recovers : RecoversExpressions input expression bound) {rest : List Piece}
  (follows : Follows Piece.closesExpression rest)

include recovers follows

/-- What extends as far right as possible is read back, whatever the other alternatives are. -/
theorem openEnded_leads {e : Expression} (normal : e.Normal)
    (isOpenEnded : e.node.isOpenEnded = true) (small : e.pieces.length < bound + 1)
    (others : List (Parser Expression)) :
    Leads input (choice (openEnded expression ++ others)) (joinFirst (e.pieces ++ rest)) rest
      fun found =>
      found.view .placeless = e.view .placeless := by
  have noWord : ∀ {piece : Piece} {more : List Piece} (word : String),
      (piece.kind == .keyword && piece.lexeme == Text.ofString word) = false →
      Refuses input (attempt (keyword word)) (joinFirst (piece :: more)) := by
    intro piece more word differs
    exact Fails.attempt (keyword_refuses (.first differs more)).fails
  show Leads input (choice (letExpression expression :: caseDistinction expression ::
      conditional expression :: Grammar.lambda expression :: others)) _ _ _
  cases normal with
  | @letDefinition span place inner pattern arguments value body defines normalValue normalBody =>
    rw [Expression.pieces_mk, ExpressionNode.pieces_plainLet] at small ⊢
    rw [List.length_cons, List.length_append, List.length_cons] at small
    have smallValue : value.pieces.length ≤ (Declaration.pieces Expression.pieces
        (.definition ⟨pattern, arguments.map .alone, [], value⟩)).length := by
      rw [Declaration.pieces, Definition.pieces, List.length_append, List.length_append,
        List.length_cons]
      dsimp only
      omega
    rw [List.cons_append, List.append_assoc, List.cons_append]
    have reads := declaration_leads_definition recovers defines normalValue (by omega)
      (@Follows.first Piece.closesExpression (.keyword "in") rfl rfl (body.pieces ++ rest))
    exact Leads.choice_here (letExpression_leads recovers reads normalBody
        (by omega) follows span place inner)
  | @letSignature span place inner name type body lexical normalType normalBody =>
    rw [Expression.pieces_mk, ExpressionNode.pieces_plainLet] at small ⊢
    rw [List.length_cons, List.length_append, List.length_cons] at small
    rw [List.cons_append, List.append_assoc, List.cons_append]
    have reads := @declaration_leads_signature input expression _ name type normalType
      (@Follows.first Piece.closesType (.keyword "in") rfl rfl (body.pieces ++ rest))
    exact Leads.choice_here (letExpression_leads recovers reads normalBody
        (by omega) follows span place inner)
  | @caseOf span subject place pattern body normalSubject normalPattern normalBody =>
    rw [Expression.pieces_mk, ExpressionNode.pieces_plainCase] at small ⊢
    simp only [List.length_append, List.length_cons] at small
    rw [List.cons_append, List.append_assoc, List.cons_append, List.append_assoc, List.cons_append]
    refine Leads.choice_later (expressionOf_refuses (noWord "let" (by decide)).bind) fun _ =>
      Leads.choice_here ?_
    exact caseDistinction_leads recovers normalSubject normalPattern normalBody (by omega)
      (by omega) follows span place
  | @conditional span first others final conditions bodies normalFinal notConditional =>
    have shape := pieces_plainConditional first others final
    have whole := shape []
    rw [List.append_nil] at whole
    rw [Expression.pieces_mk] at small ⊢
    rw [whole] at small
    rw [shape rest]
    refine Leads.choice_later (expressionOf_refuses (noWord "let" (by decide)).bind) fun _ => ?_
    refine Leads.choice_later (expressionOf_refuses (noWord "case" (by decide)).bind) fun _ =>
      Leads.choice_here ?_
    exact conditional_leads recovers (fun clause member => ⟨conditions clause member,
      bodies clause member⟩) normalFinal notConditional small follows span
  | @lambda span arguments body normalArguments terms some normalBody =>
    rw [Expression.pieces_mk, ExpressionNode.pieces_plainLambda] at small ⊢
    rw [List.length_cons, List.length_append, List.length_cons] at small
    rw [List.cons_append, List.append_assoc, List.cons_append]
    refine Leads.choice_later (expressionOf_refuses (noWord "let" rfl).bind) fun _ => ?_
    refine Leads.choice_later (expressionOf_refuses (noWord "case" rfl).bind) fun _ => ?_
    refine Leads.choice_later (expressionOf_refuses (noWord "if" rfl).bind.bind) fun _ =>
      Leads.choice_here ?_
    exact lambda_leads recovers normalArguments terms some normalBody (by omega) follows span
  | _ => cases isOpenEnded

end OpenEnded

end Marginalia
