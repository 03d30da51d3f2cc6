import Marginalia.Grammar.Expression
import Marginalia.Proofs.Writing.Recovery

/-!
# Reading written terms

Terms of expressions in normal form are read back from their pieces, up to spans, if the expressions
and terms inside them are. Fields may be read only from some terms, so a term is taken apart into a
base and the fields behind it.
-/

namespace Marginalia

open Marginalia.Parser Marginalia.Grammar

open Piece (Apart Opening joinFirst listed enclosed dotted parenthesized opensPlain opensTerm)

variable {input : Input}

/-! ## What begins and follows expressions -/

/-- The kinds of pieces that may follow a whole expression. -/
def Piece.closesExpression (piece : Piece) : Bool :=
  match piece.kind with
  | .rightParen | .rightBracket | .rightBrace | .comma | .range | .keyword => true
  | _ => false

/-- The first kinds of pieces of an expression that extends as far right as possible. -/
def Piece.opensOpenEnded (piece : Piece) : Bool :=
  piece.kind == .keyword || piece.kind == .backslash

/-- The first kinds of pieces of an expression. -/
def Piece.opensExpression (piece : Piece) : Bool := piece.opensTerm || piece.opensOpenEnded

/-- The parser reads back terms. -/
abbrev RecoversTerms (input : Input) (term : Parser Expression) (bound : Nat) : Prop :=
  Recovers input term Expression.pieces (Expression.view .placeless) (fun e => e.Normal ∧
      e.node.isTerm = true) Apart opensTerm bound

/-- The parser reads back expressions. -/
abbrev RecoversExpressions (input : Input) (expression : Parser Expression) (bound : Nat) : Prop :=
  Recovers input expression Expression.pieces (Expression.view .placeless) Expression.Normal
    (Follows Piece.closesExpression) Piece.opensExpression bound

/-- What is seen of a node of an expression without places. -/
abbrev ExpressionNode.seen (node : ExpressionNode Expression) : ExpressionNode Expression :=
  node.view .placeless (Expression.view .placeless)

/-- What an expression begins with. -/
theorem ExpressionNode.opensExpression_of_beginsWith {node : ExpressionNode Expression}
    {piece : Piece} (begins : node.beginsWith piece = true) : piece.opensExpression = true := by
  rw [Piece.opensExpression, Bool.or_eq_true]
  cases node with
  | conditional | caseOf | letIn | lambda =>
    obtain rfl := beq_iff_eq.mp begins
    exact .inr rfl
  | _ => exact .inl (opensTerm_of_beginsWith rfl begins)

/-- The pieces of an expression in normal form. -/
theorem Expression.Normal.opening {e : Expression} (normal : e.Normal) :
    Opening Piece.opensExpression e.pieces := by
  obtain ⟨phrase, first, rest, same, begins⟩ := normal.writable.opening
  exact ⟨phrase, first, rest, same, ExpressionNode.opensExpression_of_beginsWith begins⟩

/-- What stands between brackets, and the closing one, stands apart from the opening one. -/
theorem Piece.listed_apart {items : List Expression} (normal : ∀ e ∈ items, e.Normal)
    {close : TokenKind} (closes : close.mark?.isSome) (rest : List Piece) :
    Apart (listed (items.map Expression.pieces) ++ mark close :: rest) := by
  have phrase := (listed_phrase fun e member => (normal e member).opening.phrase).append
    ((mark_sound closes).phrase rfl)
  have apart := phrase.apart.append (by simp) rest
  rwa [List.append_assoc] at apart

/-- A located node is read as an expression. -/
theorem expressionOf_leads {parser : Parser (ExpressionNode Expression)} {before after : List Piece}
    {node : ExpressionNode Expression}
    (leads : Leads input parser before after fun found => found.seen = node.seen) (span : Span) :
    Leads input (expressionOf parser) before after fun found =>
      found.view .placeless = Expression.view .placeless ⟨span, node⟩ := by
  apply leads.located.bind
  intro found same
  refine .pure ?_
  rw [Expression.view_mk, Expression.view_mk]
  exact congrArg (Expression.mk _) same

/-- A located node is refused where the node is. -/
theorem expressionOf_refuses {parser : Parser (ExpressionNode Expression)} {before : List Piece}
    (refuses : Refuses input parser before) : Refuses input (expressionOf parser) before :=
  refuses.located.bind

/-- A located node fails where the node does. -/
theorem expressionOf_fails {parser : Parser (ExpressionNode Expression)} {before : List Piece}
    (fails : Fails input parser before) : Fails input (expressionOf parser) before :=
  (position_leads.fails fun _ _ => fails.bind).bind

/-! ## Words -/

section Words

variable {before rest : List Piece}

/-- A name is read as the node that it stands for. -/
theorem nameTerm_leads {after : List Piece} {r : Reference}
    (leads : Leads input nameReference before after (· = r)) (span : Span) :
    Leads input nameTerm before after fun found =>
      found.view .placeless = Expression.view .placeless ⟨span, referenceNode r⟩ := by
  refine expressionOf_leads ?_ span
  apply leads.bind
  rintro _ rfl
  exact .pure rfl

/-- A literal is read as a term. -/
theorem literalTerm_leads {l : Literal} (lexical : l.Lexical) (plain : l.isPlain = true)
    (span : Span) : Leads input literalTerm (joinFirst (l.piece :: rest)) rest fun found =>
      found.view .placeless = Expression.view .placeless ⟨span, .literal l⟩ := by
  refine expressionOf_leads ?_ span
  apply (literal_leads lexical plain).bind
  rintro _ rfl
  exact .pure rfl

/-- A dot and a field are read as the function that reads the field. -/
theorem accessorTerm_leads (field : Text) (span : Span) :
    Leads input accessorTerm (joinFirst ([.mark .dot, (Piece.lower field).join] ++ rest)) rest
      fun found =>
      found.view .placeless = Expression.view .placeless ⟨span, .accessor field⟩ := by
  refine Leads.attempt (expressionOf_leads ?_ span)
  apply (mark_leads .dot).bind
  intro _ _
  apply (lowerName_leads field).bind
  rintro _ rfl
  exact .pure rfl

/-- Shader source between its marks is read without them. -/
theorem shaderTerm_leads {source : Text} (noReturn : Text.carriageReturn ∉ source) (span : Span) :
    Leads input shaderTerm (joinFirst (⟨false, .shader, Text.ofString Scan.shaderOpening ++
      (source ++ Text.ofString Scan.shaderClosing)⟩ :: rest)) rest fun found =>
      found.view .placeless = Expression.view .placeless ⟨span, .shader source⟩ := by
  have inside : (Text.ofString Scan.shaderOpening ++
        (source ++ Text.ofString Scan.shaderClosing)).trimEnds 6 2 = source :=
    trimEnds_append (Text.ofString Scan.shaderOpening) source (Text.ofString Scan.shaderClosing)
  have kept : source.filter (· != Text.carriageReturn) = source :=
    List.filter_eq_self.mpr fun u member => bne_iff_ne.mpr fun same => noReturn (same ▸ member)
  refine expressionOf_leads ?_ span
  apply (token_leads rfl).bind
  intro token same
  refine .pure ?_
  rw [same, inside, kept]

end Words

/-! ## Brackets -/

/-- Expressions in parentheses: none, one or several. -/
def tupleOfExpressions : List Expression → ExpressionNode Expression
  | [] => .unit []
  | [only] => .parens (.alone only)
  | elements => .tuple (elements.map .alone) false

/-- What is written in parentheses. -/
theorem pieces_tupleOfExpressions (elements : List Expression) :
    (tupleOfExpressions elements).pieces Expression.pieces =
      enclosed .leftParen .rightParen (listed (elements.map Expression.pieces)) := by
  match elements with
  | [] => rfl
  | [e] =>
    simp [tupleOfExpressions, ExpressionNode.pieces, Piece.listed, Piece.between, Commented.alone]
  | e :: f :: more =>
    exact congrArg (fun parts => enclosed .leftParen .rightParen (listed parts))
      (map_alone (e :: f :: more) Expression.pieces)

/-- An operator in parentheses is read as its name. -/
theorem operatorTerm_leads (symbol : Text) (rest : List Piece) (span : Span) :
    Leads input operatorTerm (joinFirst (parenthesized symbol ++ rest)) rest fun found =>
      found.view .placeless = Expression.view .placeless ⟨span, .reference (.operator symbol)⟩ := by
  refine Leads.attempt (expressionOf_leads ?_ span)
  apply (parenthesizedOperator_leads symbol).bind
  rintro _ rfl
  exact .pure rfl

/-- No operator in parentheses is a term where none follows the first one. -/
theorem operatorTerm_refuses {rest : List Piece} (avoids : Avoids (·.kind == .operator) rest) :
    Refuses input operatorTerm (joinFirst (.mark .leftParen :: rest)) :=
  Fails.attempt (expressionOf_fails (parenthesizedOperator_fails avoids).bind)

/-- Commas in parentheses are read as the function that makes a tuple. -/
theorem tupleFunctionTerm_leads {arity : Nat} (several : 2 ≤ arity)
    (rest : List Piece) (span : Span) :
    Leads input tupleFunctionTerm (joinFirst (Piece.tight (enclosed .leftParen .rightParen
      (List.replicate (arity - 1) (.mark .comma))) ++ rest)) rest fun found =>
      found.view .placeless = Expression.view .placeless ⟨span, .tupleFunction arity⟩ := by
  obtain ⟨further, rfl⟩ := Nat.exists_eq_add_of_le' several
  have commas : Piece.tight
        (enclosed .leftParen .rightParen (List.replicate (further + 2 - 1) (.mark .comma))) ++
        rest = .mark .leftParen :: joinFirst (.mark .comma :: ((List.replicate further ()).flatMap
        (fun _ => [(Piece.mark .comma).join]) ++ joinFirst (.mark .rightParen :: rest))) := by
    rw [List.flatMap_replicate]
    simp [Piece.tight, enclosed, List.replicate_succ, joinFirst]
  have each : ∀ comma ∈ List.replicate further (), ∀ after, True → Leads input (token .comma "','")
      ([(Piece.mark .comma).join] ++ after) after fun _ => () = comma :=
    fun _ _ _ _ => (mark_leads .comma).imp fun _ _ => rfl
  have stops : Refuses input (token .comma "','") (joinFirst (.mark .rightParen :: rest)) :=
    token_refuses (by decide) (.first rfl rest)
  have others := Leads.many (fun _ _ _ => trivial) trivial each
    (fun _ _ => List.cons_ne_nil _ _) stops
  rw [commas]
  refine Leads.attempt (expressionOf_leads ?_ span)
  apply (mark_leads .leftParen).bind
  intro _ _
  apply (mark_leads .comma).bind
  intro _ _
  apply others.bind
  intro found same
  apply (mark_leads .rightParen).bind
  intro _ _
  have length : found.length = further := by simpa using congrArg List.length same
  refine .pure ?_
  rw [length]

/-- No commas are where something stands apart from the parenthesis. -/
theorem tupleFunctionTerm_refuses {rest : List Piece} (apart : Apart rest) :
    Refuses input tupleFunctionTerm (joinFirst (.mark .leftParen :: rest)) := by
  refine Fails.attempt (expressionOf_fails ((mark_leads .leftParen).fails fun _ _ => ?_))
  exact (token_refuses (by decide) (apart.avoids _)).bind.fails

/-- What is written of a record without comments. -/
theorem ExpressionNode.pieces_plainRecord (base : Option Text) (fields : List (Text × Expression)) :
    (record (base.map .alone) (fields.map fun field => .alone (.plain field)) [] false).pieces
      Expression.pieces = enclosed .leftBrace .rightBrace (basePieces (base.map .alone) ++ listed
      (fields.map fun field => (RecordPair.plain field).pieces Expression.pieces)) := by
  rw [ExpressionNode.pieces, List.map_map]
  rfl

/-- Nothing in parentheses is a term where none is. -/
theorem parensTerm_refuses {expression : Parser Expression} {before : List Piece}
    (avoids : Avoids (·.kind == .leftParen) before) :
    Refuses input (parensTerm expression) before := by
  refine Refuses.choice ?_
  simp only [List.forall_mem_cons, List.not_mem_nil, false_imp_iff, implies_true, and_true]
  refine ⟨?_, ?_, ?_⟩
  · exact Fails.attempt (expressionOf_refuses (parenthesizedOperator_refuses avoids).bind).fails
  · exact Fails.attempt (expressionOf_refuses (token_refuses (by decide) avoids).bind).fails
  · exact expressionOf_refuses (group_refuses (by decide) avoids).bind

section Over

variable {expression : Parser Expression} {bound : Nat}
  (recovers : RecoversExpressions input expression bound)

include recovers

/-- Expressions in brackets are read back. -/
theorem expressionGroup_leads {elements : List Expression} {opening close : TokenKind}
    (label : String) (normal : ∀ e ∈ elements, e.Normal)
    (small : (listed (elements.map Expression.pieces)).length < bound)
    (closes : close = .rightParen ∨ close = .rightBracket) (rest : List Piece) :
    Leads input (Parser.group opening close expression label) (joinFirst
      (enclosed opening close (listed (elements.map Expression.pieces)) ++ rest)) rest fun found =>
        ∃ items', found = (⟨items', []⟩, false) ∧
          items'.map (Commented.map (Expression.view .placeless)) = elements.map fun e =>
          .alone (e.view .placeless) := by
  refine recovers.group normal (fun e member => (normal e member).opening) small ?_ ?_
    (fun piece opens isClose => ?_) fun kind more isMark => ?_
  · rcases closes with rfl | rfl <;> decide
  · rcases closes with rfl | rfl <;> decide
  · rcases closes with rfl | rfl <;> simp [Piece.opensExpression, Piece.opensOpenEnded, opensTerm,
      opensPlain, Piece.opensPattern, isClose] at opens
  · rcases closes with rfl | rfl <;> rcases isMark with rfl | rfl <;> exact .first rfl rfl more

/-- Expressions in parentheses are read back. -/
theorem tupleTerm_leads {elements : List Expression} (normal : ∀ e ∈ elements, e.Normal)
    (small : (listed (elements.map Expression.pieces)).length < bound)
    (rest : List Piece) (span : Span) :
    Leads input (tupleTerm expression) (joinFirst (enclosed .leftParen .rightParen
      (listed (elements.map Expression.pieces)) ++ rest)) rest fun found =>
        found.view .placeless = Expression.view .placeless ⟨span, tupleOfExpressions elements⟩ := by
  refine expressionOf_leads ?_ span
  apply (expressionGroup_leads recovers _ normal small (.inl rfl) rest).bind
  rintro _ ⟨items', rfl, same⟩
  match items', elements with
  | [], [] => exact .pure rfl
  | [only], [e] =>
    refine .pure ?_
    have value := (List.cons.inj same).1
    exact congrArg ExpressionNode.parens value
  | first :: second :: others, e :: f :: more =>
    refine .pure ?_
    simp only [ExpressionNode.seen, tupleOfExpressions, ExpressionNode.view,
      Commented.view_placeless, map_map_alone]
    rw [same]
  | [], _ :: _ | _ :: _, [] => cases same
  | [_], _ :: _ :: _ | _ :: _ :: _, [_] => cases (List.cons.inj same).2

/-- Lists are read back. -/
theorem listTerm_leads {elements : List Expression} (normal : ∀ e ∈ elements, e.Normal)
    (small : (listed (elements.map Expression.pieces)).length < bound)
    (rest : List Piece) (span : Span) :
    Leads input (listTerm expression) (joinFirst (enclosed .leftBracket .rightBracket
      (listed (elements.map Expression.pieces)) ++ rest)) rest fun found =>
        found.view .placeless = Expression.view .placeless
          ⟨span, .list (elements.map .alone) [] false⟩ := by
  refine expressionOf_leads ?_ span
  apply (expressionGroup_leads recovers _ normal small (.inr rfl) rest).bind
  rintro _ ⟨items', rfl, same⟩
  refine .pure ?_
  simp only [ExpressionNode.seen, ExpressionNode.view, Commented.view_placeless, map_map_alone]
  rw [same]

/-- Two bounds are read back. -/
theorem rangeTerm_leads {low high : Expression} (normalLow : low.Normal) (normalHigh : high.Normal)
    (small : (low.pieces ++ .mark .range :: high.pieces).length < bound)
    (rest : List Piece) (span : Span) :
    Leads input (rangeTerm expression) (joinFirst (enclosed .leftBracket .rightBracket
      (low.pieces ++ .mark .range :: high.pieces) ++ rest)) rest fun found =>
        found.view .placeless = Expression.view .placeless
          ⟨span, .range (.alone low) (.alone high) false⟩ := by
  rw [List.length_append, List.length_cons] at small
  have first := recovers.leads low normalLow (by omega)
    (.mark .range :: (high.pieces ++ .mark .rightBracket :: rest)) (.first rfl rfl _)
  have second := recovers.leads high normalHigh (by omega) (.mark .rightBracket :: rest)
    (.first rfl rfl _)
  have contents : Leads input (do
        let _ ← token .leftBracket "'['"
        let low ← padded expression
        let _ ← token .range "'..'"
        let high ← padded expression
        let _ ← token .rightBracket "']'"
        return (low, high))
      (joinFirst (enclosed .leftBracket .rightBracket (low.pieces ++ .mark .range :: high.pieces) ++
          rest)) rest fun found =>
        (found.1.map (Expression.view .placeless), found.2.map (Expression.view .placeless)) =
          (.alone (low.view .placeless), .alone (high.view .placeless)) := by
    rw [enclosed, List.cons_append, List.append_assoc, List.append_assoc, List.cons_append]
    apply (mark_leads .leftBracket).bind
    intro _ _
    apply first.padded.bind
    rintro _ ⟨_, rfl, sameLow⟩
    apply (mark_leads .range).bind
    intro _ _
    apply second.padded.bind
    rintro _ ⟨_, rfl, sameHigh⟩
    apply (mark_leads .rightBracket).bind
    intro _ _
    refine .pure ?_
    simp only [Commented.map, sameLow, sameHigh]
    rfl
  refine expressionOf_leads ?_ span
  apply contents.trackNewline.bind
  rintro _ ⟨⟨lower, upper⟩, rfl, same⟩
  obtain ⟨sameLow, sameHigh⟩ := Prod.mk.inj same
  refine .pure ?_
  simp only [ExpressionNode.seen, ExpressionNode.view, Commented.view_placeless]
  rw [sameLow, sameHigh]
  rfl

/-- A list has no two bounds. -/
theorem rangeTerm_refuses {elements : List Expression} (normal : ∀ e ∈ elements, e.Normal)
    (small : (listed (elements.map Expression.pieces)).length < bound) (rest : List Piece) :
    Refuses input (attempt (rangeTerm expression)) (joinFirst
      (enclosed .leftBracket .rightBracket (listed (elements.map Expression.pieces)) ++ rest)) := by
  have bounds : Fails input (do
        let low ← padded expression
        let _ ← token .range "'..'"
        let high ← padded expression
        let _ ← token .rightBracket "']'"
        return (low, high)) (listed (elements.map Expression.pieces) ++
          .mark .rightBracket :: rest) := by
    cases elements with
    | nil =>
      refine Fails.bind (whitespace_leads.fails fun _ _ => ?_)
      exact (recovers.refuses (by omega) _ (.first rfl rest)).bind.fails
    | cons e more =>
      have inside : e.pieces.length ≤ (listed ((e :: more).map Expression.pieces)).length :=
        Piece.length_le_between (.head _)
      obtain ⟨kind, others, shape, isMark⟩ :
          ∃ kind others, listed ((e :: more).map Expression.pieces) ++ .mark .rightBracket :: rest =
            e.pieces ++ .mark kind :: others ∧ (kind = .comma ∨ kind = .rightBracket) := by
        cases more with
        | nil => exact ⟨.rightBracket, rest, by simp [Piece.listed, Piece.between], .inr rfl⟩
        | cons f more => exact ⟨.comma, _, by simp [Piece.listed, Piece.between]; rfl, .inl rfl⟩
      have follows : Follows Piece.closesExpression (.mark kind :: others) := by
        rcases isMark with rfl | rfl <;> exact .first rfl rfl others
      have noRange : Avoids (·.kind == .range) (joinFirst (.mark kind :: others)) := by
        rcases isMark with rfl | rfl <;> exact .first rfl others
      rw [shape]
      apply (recovers.leads e (normal e (.head _)) (by omega) _ follows).padded.fails
      intro _ _
      exact (token_refuses (by decide) noRange).bind.fails
  rw [enclosed, List.cons_append, List.append_assoc]
  refine Fails.attempt (expressionOf_fails (Fails.bind (Fails.trackNewline ?_)))
  exact (mark_leads .leftBracket).fails fun _ _ => bounds

/-- A field of a record is read back. -/
theorem recordPair_leads {pair : Text × Expression} (normal : pair.2.Normal)
    (small : pair.2.pieces.length < bound) {rest : List Piece}
    (follows : Follows Piece.closesExpression rest) :
    Leads input (recordPair expression)
      (joinFirst ((RecordPair.plain pair).pieces Expression.pieces ++ rest)) rest fun found =>
      found.view .placeless (Expression.view .placeless) = (RecordPair.plain pair).view .placeless
      (Expression.view .placeless) := by
  have equals : Leads input (do
        let before ← whitespace
        let _ ← satisfy (fun token => token.kind == .equals || token.kind == .colon) "'='"
        return (before, ← whitespace))
      (.mark .equals :: (pair.2.pieces ++ rest)) (joinFirst (pair.2.pieces ++ rest))
        (· = ([], [])) := by
    apply whitespace_leads.bind
    rintro _ rfl
    apply (satisfy_leads fun token sameKind _ => by rw [sameKind]; rfl).bind
    intro _ _
    apply whitespace_leads.bind
    rintro _ rfl
    exact .pure rfl
  apply (lowerName_leads pair.1).bind
  rintro _ rfl
  apply equals.trackNewline.bind
  rintro _ ⟨_, rfl, rfl⟩
  apply (recovers.leads pair.2 normal small rest follows).bind
  intro found same
  refine .pure ?_
  exact congrArg (fun value => RecordPair.plain (pair.1, value)) same

/-- A record is read back. -/
theorem recordTerm_leads {base : Option Text} {fields : List (Text × Expression)}
    (normal : ∀ field ∈ fields, field.2.Normal) (small : (listed
      (fields.map fun field => (RecordPair.plain field).pieces Expression.pieces)).length < bound)
    (rest : List Piece) (span : Span) :
    Leads input (recordTerm expression)
      (joinFirst (enclosed .leftBrace .rightBrace (basePieces (base.map .alone) ++ listed
      (fields.map fun field => (RecordPair.plain field).pieces Expression.pieces)) ++ rest)) rest
      fun found => found.view .placeless = Expression.view .placeless ⟨span,
      .record (base.map .alone) (fields.map fun field => .alone (.plain field)) [] false⟩ := by
  have each : ∀ field ∈ fields, ∀ kind more, kind = .comma ∨ kind = .rightBrace →
        Leads input (recordPair expression)
        (joinFirst ((RecordPair.plain field).pieces Expression.pieces ++ .mark kind :: more))
        (.mark kind :: more) fun found => found.view .placeless (Expression.view .placeless) =
        (RecordPair.plain field).view .placeless (Expression.view .placeless) := by
    intro field member kind more isMark
    have short := @Piece.length_le_between _ (.mark .comma) _
      (fun field => (RecordPair.plain field).pieces Expression.pieces) _ member
    refine recordPair_leads recovers (normal field member) ?_ ?_
    · exact Nat.lt_of_le_of_lt (Nat.le_trans (Nat.le_add_right _ 2) short) small
    · rcases isMark with rfl | rfl <;> exact .first rfl rfl more
  refine expressionOf_leads ?_ span
  apply (recordContents_leads base
      (fun field _ => ⟨field.1, .mark .equals, field.2.pieces, rfl, nofun⟩) each).bind
  rintro _ ⟨items', rfl, same⟩
  refine .pure ?_
  simp only [ExpressionNode.seen, ExpressionNode.view, Commented.view_placeless]
  rw [same, List.map_map]
  rfl

/-- What stands in parentheses is read back. -/
theorem parensTerm_leads {elements : List Expression} (normal : ∀ e ∈ elements, e.Normal)
    (small : (listed (elements.map Expression.pieces)).length < bound)
    (rest : List Piece) (span : Span) :
    Leads input (parensTerm expression) (joinFirst (enclosed .leftParen .rightParen
      (listed (elements.map Expression.pieces)) ++ rest)) rest fun found =>
        found.view .placeless = Expression.view .placeless ⟨span, tupleOfExpressions elements⟩ := by
  have apart := @Piece.listed_apart _ normal .rightParen rfl rest
  have tuple := tupleTerm_leads recovers normal small rest span
  rw [enclosed, List.cons_append, List.append_assoc] at tuple ⊢
  refine Leads.choice_later (operatorTerm_refuses (apart.avoids _)) fun _ => ?_
  exact Leads.choice_later (tupleFunctionTerm_refuses apart) fun _ => Leads.choice_here tuple

end Over

/-! ## Bases and fields -/

/-- The expression is one that a term begins with before the fields that are read from it. -/
def ExpressionNode.isBase : ExpressionNode Expression → Bool
  | literal l => !l.isPlain
  | reference _ | parens _ | tuple .. | unit _ | tupleFunction _ | record .. => true
  | _ => false

/-- The first kinds of pieces of a base. -/
def Piece.opensBase (piece : Piece) : Bool :=
  match piece.kind with
  | .lowerIdentifier | .upperIdentifier | .leftParen | .leftBrace => true
  | _ => false

/-- A base begins with a name or a bracket. -/
theorem Expression.Normal.base_begins {span : Span} {node : ExpressionNode Expression}
    (normal : Normal ⟨span, node⟩) (base : node.isBase = true) (rest : List Piece) :
    Avoids (fun piece => !piece.opensBase) (joinFirst (node.pieces Expression.pieces ++ rest)) := by
  have qualified :
      ∀ (name : QualifiedName) (last : Text → Piece), (∀ text, (last text).join.opensBase = true) →
        Avoids (fun piece => !piece.opensBase) (joinFirst (name.pieces last ++ rest)) := by
    intro name last opens
    obtain ⟨qualifier, name⟩ := name
    cases qualifier with
    | nil => exact .first (congrArg not (opens name)) rest
    | cons first others => exact .first rfl _
  cases normal with
  | @literal _ l lexical =>
    cases l with
    | boolean value => exact .first rfl rest
    | _ => cases base
  | @reference _ r lexical noBoolean =>
    cases r with
    | value name => exact qualified name .lower fun _ => rfl
    | tag name => exact qualified name .upper fun _ => rfl
    | operator symbol => exact .first rfl _
  | parens | tuple | unit | tupleFunction | record => exact .first rfl _
  | _ => cases base

/-- A base is read back; behind one from which no field may be read a blank or the end is. -/
theorem base_leads {expression : Parser Expression} {bound : Nat}
    (recovers : RecoversExpressions input expression bound) {span : Span}
    {node : ExpressionNode Expression} (normal : Expression.Normal ⟨span, node⟩)
    (base : node.isBase = true) (small : (node.pieces Expression.pieces).length < bound + 1)
    {rest : List Piece} (behind : node.isTarget = true ∨ Apart rest) :
    Leads input (choice [nameTerm, parensTerm expression, recordTerm expression])
      (joinFirst (node.pieces Expression.pieces ++ rest)) rest fun found =>
        found.view .placeless = Expression.view .placeless ⟨span, node⟩ := by
  have noName : ∀ (piece : Piece) more, piece.kind = .leftParen ∨ piece.kind = .leftBrace →
      Refuses input nameTerm (joinFirst (piece :: more)) := by
    intro piece more isBracket
    refine expressionOf_refuses (nameReference_refuses (.first ?_ more)).bind
    rcases isBracket with same | same <;> simp [Piece.join, same]
  have parenthesized : ∀ elements, node = tupleOfExpressions elements → (∀ e ∈ elements, e.Normal) →
      Leads input (choice [nameTerm, parensTerm expression, recordTerm expression])
        (joinFirst (node.pieces Expression.pieces ++ rest)) rest fun found =>
          found.view .placeless = Expression.view .placeless ⟨span, node⟩ := by
    rintro elements rfl each
    rw [pieces_tupleOfExpressions] at small ⊢
    rw [Piece.length_enclosed] at small
    refine Leads.choice_later (noName _ _ (.inl rfl)) fun _ => Leads.choice_here ?_
    exact parensTerm_leads recovers each (by omega) rest span
  cases normal with
  | @literal _ l lexical =>
    cases l with
    | boolean value =>
      have apart : Apart rest := behind.resolve_left (by rintro ⟨⟩)
      cases value with
      | true =>
        exact Leads.choice_here (nameTerm_leads (nameReference_tag_leads ⟨[], "True"⟩ apart) span)
      | false =>
        exact Leads.choice_here (nameTerm_leads (nameReference_tag_leads ⟨[], "False"⟩ apart) span)
    | _ => cases base
  | @reference _ r lexical noBoolean =>
    have same : referenceNode r = .reference r := by
      rw [referenceNode, if_neg noBoolean.1, if_neg noBoolean.2]
    have named : Leads input nameReference (joinFirst (r.pieces ++ rest)) rest (· = r) →
        Leads input nameTerm (joinFirst (r.pieces ++ rest)) rest fun found =>
          found.view .placeless = Expression.view .placeless ⟨span, .reference r⟩ := by
      intro leads
      rw [← same]
      exact nameTerm_leads leads span
    cases r with
    | value name => exact Leads.choice_here (named (nameReference_value_leads name))
    | tag name =>
      have apart : Apart rest := behind.resolve_left (by rintro ⟨⟩)
      exact Leads.choice_here (named (nameReference_tag_leads name apart))
    | operator symbol =>
      refine Leads.choice_later (noName _ _ (.inl rfl)) fun _ =>
        Leads.choice_here (Leads.choice_here ?_)
      exact operatorTerm_leads symbol rest span
  | unit => exact parenthesized [] rfl (by simp)
  | @parens _ e normal => exact parenthesized [e] rfl (by simpa using normal)
  | @tuple _ elements normal several =>
    refine parenthesized elements ?_ normal
    rcases elements with _ | ⟨first, _ | ⟨second, others⟩⟩
    · cases several
    · simp at several
    · rfl
  | @tupleFunction _ arity several =>
    have commas := @tupleFunctionTerm_leads input arity several rest span
    obtain ⟨further, rfl⟩ := Nat.exists_eq_add_of_le' several
    refine Leads.choice_later (noName _ _ (.inl rfl)) fun _ => Leads.choice_here ?_
    exact Leads.choice_later (operatorTerm_refuses (.first rfl _)) fun _ => Leads.choice_here commas
  | @record _ name fields lexicalBase lexical normal =>
    rw [ExpressionNode.pieces_plainRecord] at small ⊢
    rw [Piece.length_enclosed, List.length_append] at small
    refine Leads.choice_later (noName _ _ (.inr rfl)) fun _ => ?_
    refine Leads.choice_later (parensTerm_refuses (.first rfl _)) fun _ => Leads.choice_here ?_
    exact recordTerm_leads recovers normal (by omega) rest span
  | _ => cases base

/-- Fields that are read from a record one after the other. -/
def Expression.accessed (record : Expression) (fields : List Text) : Expression :=
  fields.foldl (fun record field => ⟨⟨.start, .start⟩, .access record field⟩) record

/-- Fields behind a term are seen as they are read one after the other. -/
theorem Expression.view_fields (start : Position)
    (fields : List (Text × Position)) (record : Expression) :
    (fields.foldl (fun record (field, stop) => ⟨⟨start, stop⟩, .access record field⟩) record).view
      .placeless = (record.view .placeless).accessed (fields.map (·.1)) := by
  induction fields generalizing record with
  | nil => rfl
  | cons field others ih =>
    rw [List.foldl_cons, ih, view_mk]
    rfl

/-- A term from which fields may be read is a base and the fields behind it. -/
structure Expression.Spine (e root : Expression) (fields : List Text) : Prop where
  /-- The base is in normal form. -/
  normal : root.Normal
  /-- It is a base. -/
  base : root.node.isBase = true
  /-- Fields are read only from a target. -/
  target : fields = [] ∧ root = e ∨ root.node.isTarget = true
  /-- The fields are written behind the base. -/
  pieces : e.pieces = root.pieces ++ fields.flatMap fun field => dotted (.lower field)
  /-- The term is seen as the fields read from the base. -/
  seen : e.view .placeless = (root.view .placeless).accessed fields

/-- A base is its own spine. -/
theorem Expression.Spine.of_base {e : Expression} (normal : e.Normal)
    (base : e.node.isBase = true) : Spine e e [] :=
  ⟨normal, base, .inl ⟨rfl, rfl⟩, (List.append_nil _).symm, rfl⟩

/-- The expression is a base, or a field read from another one. -/
def ExpressionNode.isAccessible (node : ExpressionNode Expression) : Bool :=
  match node with
  | access .. => true
  | node => node.isBase

/-- A base, or a field read from another expression, has a spine. -/
theorem Expression.Normal.spine {e : Expression} (normal : e.Normal)
    (accessible : e.node.isAccessible = true) : ∃ root fields, Expression.Spine e root fields := by
  induction normal with
  | @access span target field normal isTarget lexical ih =>
    have inner : target.node.isAccessible = true := by
      obtain ⟨span, node⟩ := target
      cases node <;> first | rfl | cases isTarget
    obtain ⟨root, fields, spine⟩ := ih inner
    have rootTarget : root.node.isTarget = true :=
      spine.target.elim (fun ⟨_, same⟩ => same ▸ isTarget) id
    refine ⟨root, fields ++ [field], spine.normal, spine.base, .inr rootTarget, ?_, ?_⟩
    · rw [pieces_mk, ExpressionNode.pieces, spine.pieces, List.flatMap_append, List.append_assoc]
      rfl
    · rw [view_mk, ExpressionNode.view, spine.seen, accessed, accessed, List.foldl_append]
      rfl
  | literal lexical => exact ⟨_, _, .of_base (.literal lexical) accessible⟩
  | reference lexical noBoolean => exact ⟨_, _, .of_base (.reference lexical noBoolean) accessible⟩
  | tuple normal several => exact ⟨_, _, .of_base (.tuple normal several) accessible⟩
  | parens normal => exact ⟨_, _, .of_base (.parens normal) accessible⟩
  | unit => exact ⟨_, _, .of_base .unit accessible⟩
  | record lexicalBase lexical normal =>
    exact ⟨_, _, .of_base (.record lexicalBase lexical normal) accessible⟩
  | tupleFunction several => exact ⟨_, _, .of_base (.tupleFunction several) accessible⟩
  | _ => cases accessible

/-- Fields behind a term are read, up to where no further one is. -/
theorem fieldAccesses_leads (fields : List Text) {rest : List Piece} (apart : Apart rest) :
    Leads input (many fieldAccess) (fields.flatMap (fun field => dotted (.lower field)) ++ rest)
      rest fun found =>
      found.map (·.1) = fields := by
  have each : ∀ field ∈ fields, ∀ after, True →
        Leads input fieldAccess (dotted (.lower field) ++ after) after fun found =>
        found.1 = id field := by
    intro field _ after _
    have name : Leads input dottedLowerName (dotted (.lower field) ++ after) after (· = field) := by
      apply Leads.attempt
      apply (mark_leads .dot).bind
      intro _ _
      exact lowerName_leads field
    apply name.bind
    rintro _ rfl
    apply position_leads.bind
    intro stop _
    exact .pure rfl
  have stops : Refuses input fieldAccess rest := (dottedLowerName_refuses apart).bind
  refine (Leads.many (fun _ _ _ => trivial) trivial each
      (fun _ _ => List.cons_ne_nil _ _) stops).imp fun found same => ?_
  rwa [List.map_id] at same

/-- A base and the fields behind it are read back. -/
theorem accessible_leads {expression : Parser Expression} {bound : Nat}
    (recovers : RecoversExpressions input expression bound) {e : Expression} (normal : e.Normal)
    (isAccessible : e.node.isAccessible = true) (small : e.pieces.length < bound + 1)
    {rest : List Piece} (apart : Apart rest) :
    Leads input (accessible (choice [nameTerm, parensTerm expression, recordTerm expression]))
      (joinFirst (e.pieces ++ rest)) rest fun found =>
      found.view .placeless = e.view .placeless := by
  obtain ⟨⟨span, node⟩, fields, spine⟩ := normal.spine isAccessible
  have behind : node.isTarget = true ∨
      Apart (fields.flatMap (fun field => dotted (.lower field)) ++ rest) := by
    rcases spine.target with ⟨rfl, -⟩ | isTarget
    · exact .inr apart
    · exact .inl isTarget
  have inside : (node.pieces Expression.pieces).length < bound + 1 := by
    rw [spine.pieces, List.length_append, Expression.pieces_mk] at small
    omega
  rw [spine.pieces, spine.seen, List.append_assoc, Expression.pieces_mk]
  apply position_leads.bind
  intro start _
  apply (base_leads recovers spine.normal spine.base inside behind).bind
  intro record same
  apply (fieldAccesses_leads fields apart).bind
  intro found sameFields
  refine .pure ?_
  rw [Expression.view_fields, same, sameFields]

/-! ## Terms -/

section Refusals

variable {expression term : Parser Expression} {before : List Piece}

/-- No literal is a term where none is. -/
theorem literalTerm_refuses (avoids : Avoids Piece.isLiteral before) :
    Refuses input literalTerm before :=
  expressionOf_refuses (literal_refuses avoids).bind

/-- Nothing in square brackets is a term where none is. -/
theorem bracketTerm_refuses (noShader : Avoids (·.kind == .shader) before)
    (noBracket : Avoids (·.kind == .leftBracket) before) :
    Refuses input (bracketTerm expression) before := by
  refine Refuses.choice ?_
  simp only [List.forall_mem_cons, List.not_mem_nil, false_imp_iff, implies_true, and_true]
  refine ⟨?_, ?_, ?_⟩
  · exact expressionOf_refuses (token_refuses (by decide) noShader).bind
  · exact Fails.attempt (expressionOf_refuses
        (token_refuses (by decide) noBracket).bind.trackNewline.bind).fails
  · exact expressionOf_refuses (group_refuses (by decide) noBracket).bind

/-- No dot is a term where none is. -/
theorem accessorTerm_refuses (avoids : Avoids (·.kind == .dot) before) :
    Refuses input accessorTerm before :=
  Fails.attempt (expressionOf_refuses (token_refuses (by decide) avoids).bind).fails

/-- No minus sign is a term where no operator is. -/
theorem negationTerm_refuses (avoids : Avoids (·.kind == .operator) before) :
    Refuses input (negationTerm term) before := by
  have noMinus : Refuses input (operator "-") before :=
    spelled_refuses (by decide) (avoids.imp fun piece lacks => by rw [lacks]; rfl)
  exact Fails.attempt (expressionOf_refuses noMinus.bind).fails

/-- No base is a term where none is. -/
theorem accessible_refuses (avoids : Avoids Piece.opensBase before) :
    Refuses input (accessible (choice [nameTerm, parensTerm expression, recordTerm expression]))
      before := by
  have noName : Refuses input nameReference before :=
    nameReference_refuses (avoids.imp fun piece lacks => by
    obtain ⟨joined, kind, lexeme⟩ := piece
    cases kind <;> first | rfl | cases lacks)
  have noParen : Avoids (·.kind == .leftParen) before := avoids.kind fun piece same => by
    simp [Piece.opensBase, same]
  have noBrace : Avoids (·.kind == .leftBrace) before := avoids.kind fun piece same => by
    simp [Piece.opensBase, same]
  refine position_refuses fun start => Refuses.bind (Refuses.choice ?_)
  simp only [List.forall_mem_cons, List.not_mem_nil, false_imp_iff, implies_true, and_true]
  refine ⟨expressionOf_refuses noName.bind, parensTerm_refuses noParen, ?_⟩
  exact expressionOf_refuses (token_refuses (by decide) noBrace).bind.trackNewline.bind

/-- A term refuses what no term begins with. -/
theorem termOver_refuses (avoids : Avoids opensTerm before) :
    Refuses input (termOver expression term) before := by
  have without : ∀ kind, (∀ piece : Piece, piece.kind = kind → piece.opensTerm = true) →
        Avoids (·.kind == kind) before :=
    fun kind opens => avoids.kind opens
  refine Refuses.expecting (Refuses.choice ?_)
  simp only [List.forall_mem_cons, List.not_mem_nil, false_imp_iff, implies_true, and_true]
  refine ⟨literalTerm_refuses ?_, bracketTerm_refuses ?_ ?_, accessorTerm_refuses ?_,
    negationTerm_refuses ?_, accessible_refuses ?_⟩
  · refine avoids.imp fun piece lacks => ?_
    obtain ⟨joined, kind, lexeme⟩ := piece
    cases kind <;> first | rfl | cases lacks
  · exact without .shader fun piece same => by simp [opensTerm, opensPlain, same]
  · exact without .leftBracket fun piece same => by
      simp [opensTerm, opensPlain, Piece.opensPattern, same]
  · exact without .dot fun piece same => by simp [opensTerm, same]
  · exact without .operator fun piece same => by simp [opensTerm, same]
  · refine avoids.imp fun piece lacks => ?_
    obtain ⟨joined, kind, lexeme⟩ := piece
    cases kind <;> first | rfl | cases lacks

/-- An operator with a blank behind it is no term, not even a minus sign. -/
theorem termOver_refuses_operator {bound : Nat} (recovers : RecoversTerms input term bound)
    (positive : 0 < bound) (symbol : Text) {more : List Piece} (apart : Apart more) :
    Refuses input (termOver expression term) (joinFirst (.operator symbol :: more)) := by
  have negation : Refuses input (negationTerm term) (joinFirst (.operator symbol :: more)) := by
    refine Fails.attempt (expressionOf_fails ?_)
    by_cases minus : symbol = Text.ofString "-"
    · have read : Leads input (operator "-") (joinFirst (.operator symbol :: more)) more
          fun _ => True :=
        spelled_leads rfl minus
      exact read.fails fun _ _ => (recovers.refuses positive _ (apart.avoids _)).bind.fails
    · have noMinus : Refuses input (operator "-") (joinFirst (.operator symbol :: more)) :=
        spelled_refuses (by decide)
          (.first (by simpa [Piece.operator, Piece.join] using minus) more)
      exact noMinus.bind.fails
  refine Refuses.expecting (Refuses.choice ?_)
  simp only [List.forall_mem_cons, List.not_mem_nil, false_imp_iff, implies_true, and_true]
  exact ⟨literalTerm_refuses (.first rfl more), bracketTerm_refuses (.first rfl more) (.first rfl
      more), accessorTerm_refuses (.first rfl more), negation, accessible_refuses (.first rfl more)⟩

end Refusals

/-- A term that may stand directly behind a minus sign is one. -/
theorem ExpressionNode.isTerm_of_isNegatable {node : ExpressionNode Expression}
    (negatable : node.isNegatable = true) : node.isTerm = true := by
  cases node <;> first | rfl | cases negatable

/-- A term directly behind a minus sign is read back with it. -/
theorem negationTerm_leads {term : Parser Expression} {bound : Nat}
    (recovers : RecoversTerms input term bound) {operand : Expression} (normal : operand.Normal)
    (negatable : operand.node.isNegatable = true)
    (small : (joinFirst operand.pieces).length < bound) {rest : List Piece}
    (apart : Apart rest) (span : Span) :
    Leads input (negationTerm term) (joinFirst
      (.operator (Text.ofString "-") :: joinFirst operand.pieces ++ rest)) rest fun found =>
      found.view .placeless = Expression.view .placeless ⟨span, .negation operand⟩ := by
  have isTerm := ExpressionNode.isTerm_of_isNegatable negatable
  have read := recovers.leads operand ⟨normal, isTerm⟩
    (by rwa [Piece.length_joinFirst] at small) rest apart
  have behind : joinFirst operand.pieces ++ rest = joinFirst (operand.pieces ++ rest) := by
    obtain ⟨first, more, same, -⟩ := normal.opening.first
    rw [same]
    rfl
  rw [List.cons_append, behind]
  refine Leads.attempt (expressionOf_leads ?_ span)
  apply (spelled_leads rfl rfl).bind
  intro _ _
  apply read.bind
  intro found same
  exact .pure (congrArg ExpressionNode.negation same)

section Terms

variable {expression term : Parser Expression} {bound : Nat}
  (recovers : RecoversExpressions input expression bound)

include recovers

/-- Terms that begin with a square bracket are read back. -/
theorem bracketTerm_leads {elements : List Expression} (normal : ∀ e ∈ elements, e.Normal)
    (small : (listed (elements.map Expression.pieces)).length < bound)
    (rest : List Piece) (span : Span) :
    Leads input (bracketTerm expression) (joinFirst (enclosed .leftBracket .rightBracket
      (listed (elements.map Expression.pieces)) ++ rest)) rest fun found =>
        found.view .placeless = Expression.view .placeless
          ⟨span, .list (elements.map .alone) [] false⟩ := by
  refine Leads.choice_later (expressionOf_refuses (token_refuses (by decide) (.first rfl _)).bind)
    fun _ => ?_
  refine Leads.choice_later (rangeTerm_refuses recovers normal small rest) fun _ =>
    Leads.choice_here ?_
  exact listTerm_leads recovers normal small rest span

/-- Terms are read back, if the expressions and terms inside them are. -/
theorem termOver_recovers (inner : RecoversTerms input term bound) :
    RecoversTerms input (termOver expression term) (bound + 1) := by
  refine ⟨?_, fun _ before avoids => termOver_refuses avoids⟩
  rintro ⟨span, node⟩ ⟨normal, isTerm⟩ small rest apart
  refine Leads.expecting ?_
  have based : node.isAccessible = true →
      Leads input (choice [literalTerm, bracketTerm expression, accessorTerm, negationTerm term,
        accessible (choice [nameTerm, parensTerm expression, recordTerm expression])])
        (joinFirst (Expression.pieces ⟨span, node⟩ ++ rest)) rest fun found =>
          found.view .placeless = Expression.view .placeless ⟨span, node⟩ := by
    intro isAccessible
    have read := accessible_leads recovers normal isAccessible small apart
    have begins : Avoids (fun piece => !piece.opensBase)
          (joinFirst (Expression.pieces ⟨span, node⟩ ++ rest)) := by
      obtain ⟨⟨root, inside⟩, fields, spine⟩ := normal.spine isAccessible
      rw [spine.pieces, List.append_assoc, Expression.pieces_mk]
      exact spine.normal.base_begins spine.base _
    have without : ∀ kind, (∀ piece : Piece, piece.kind = kind → (!piece.opensBase) = true) →
          Avoids (·.kind == kind) (joinFirst (Expression.pieces ⟨span, node⟩ ++ rest)) :=
      fun kind lacks => begins.kind lacks
    refine Leads.choice_later (literalTerm_refuses ?_) fun _ =>
      Leads.choice_later (bracketTerm_refuses ?_ ?_) fun _ =>
      Leads.choice_later (accessorTerm_refuses ?_) fun _ =>
        Leads.choice_later (negationTerm_refuses ?_) fun _ =>
        Leads.choice_here read
    · refine begins.imp fun piece opens => ?_
      obtain ⟨joined, kind, lexeme⟩ := piece
      cases kind <;> first | rfl | cases opens
    · exact without .shader fun piece same => by simp [Piece.opensBase, same]
    · exact without .leftBracket fun piece same => by simp [Piece.opensBase, same]
    · exact without .dot fun piece same => by simp [Piece.opensBase, same]
    · exact without .operator fun piece same => by simp [Piece.opensBase, same]
  cases normal with
  | @literal _ l lexical =>
    cases l with
    | boolean value => exact based rfl
    | _ =>
      rw [Expression.pieces_mk]
      exact Leads.choice_here (literalTerm_leads lexical rfl span)
  | reference | tuple | parens | unit | record | access | tupleFunction => exact based rfl
  | @negation _ operand normal negatable =>
    rw [Expression.pieces_mk] at small ⊢
    refine Leads.choice_later (literalTerm_refuses (.first rfl _)) fun _ => ?_
    refine Leads.choice_later (bracketTerm_refuses (.first rfl _) (.first rfl _)) fun _ => ?_
    refine Leads.choice_later (accessorTerm_refuses (.first rfl _)) fun _ => Leads.choice_here ?_
    exact negationTerm_leads inner normal negatable (Nat.lt_of_succ_lt_succ small) apart span
  | @range _ low high normalLow normalHigh =>
    rw [Expression.pieces_mk, ExpressionNode.pieces] at small ⊢
    rw [Piece.length_enclosed] at small
    have inside : (low.pieces ++ .mark .range :: high.pieces).length < bound :=
      Nat.lt_of_succ_lt_succ (Nat.lt_of_succ_lt small)
    refine Leads.choice_later (literalTerm_refuses (.first rfl _)) fun _ => Leads.choice_here ?_
    refine Leads.choice_later (expressionOf_refuses (token_refuses (by decide) (.first rfl _)).bind)
      fun _ => ?_
    exact Leads.choice_here (rangeTerm_leads recovers normalLow normalHigh inside rest span).attempt
  | @list _ elements normal =>
    rw [Expression.pieces_mk, ExpressionNode.pieces, map_alone] at small ⊢
    rw [Piece.length_enclosed] at small
    refine Leads.choice_later (literalTerm_refuses (.first rfl _)) fun _ => Leads.choice_here ?_
    exact bracketTerm_leads recovers normal (by omega) rest span
  | @accessor _ field lexical =>
    rw [Expression.pieces_mk]
    refine Leads.choice_later (literalTerm_refuses (.first rfl _)) fun _ => ?_
    refine Leads.choice_later (bracketTerm_refuses (.first rfl _) (.first rfl _)) fun _ =>
      Leads.choice_here ?_
    exact accessorTerm_leads field span
  | @shader _ source lexical oneLine noReturn =>
    rw [Expression.pieces_mk]
    refine Leads.choice_later (literalTerm_refuses (.first rfl _)) fun _ =>
      Leads.choice_here (Leads.choice_here ?_)
    exact shaderTerm_leads noReturn span
  | application | chain | conditional | caseOf | letDefinition | letSignature | lambda =>
    cases isTerm

end Terms

end Marginalia
