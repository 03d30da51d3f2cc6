import Marginalia.Proofs.Indentation.Grammar

/-!
# What is read last

A token that waits for more is never the last one that a rule reads: behind each operator, comma,
opening bracket or reserved word the rule goes on. `Settles` says so of a parser, and whether a run
of it is certain to read something. It is a class, so that instance search goes along the rules of
the grammar; only the declaration of a fixity is no instance, which ends with an operator.
-/

namespace Marginalia

open Marginalia.Parser

variable {α β ω : Type}

/-- The last solid token before an index waits for nothing. -/
def Input.Settled (input : Input) (index : Nat) : Prop :=
  ∃ token ∈ (input.readBefore index).head?, token.kind.waits = false

/-- Blanks and comments are not read. -/
theorem Input.readBefore_whitespace {input : Input} {start stop : Cursor} {comments : Comments}
    (run : whitespace input start = .done comments stop) :
    input.readBefore stop.index = input.readBefore start.index := by
  obtain ⟨_, -, -, rfl⟩ := whitespace_done run
  exact readBefore_of_comments (Nat.le_add_right _ _) fun index lower upper =>
    isComment_of_lt lower upper

namespace Parser

/-- Behind a successful run the last token that was read waits for nothing. Only a run that is not
certain to read a token may leave it at what was read before. -/
class Settles (certain : outParam Bool) (parser : Parser α) : Prop where
  /-- What was read last waits for nothing, or nothing was read. -/
  settles {input : Input} {start stop : Cursor} {value : α} (scanned : input.Scanned)
    (run : parser input start = .done value stop) : input.Settled stop.index ∨ certain = false ∧
    input.readBefore stop.index = input.readBefore start.index

section Settles

variable {certain : Bool}

/-- A parser that reads nothing settles. -/
theorem Settles.of_stays {parser : Parser α} (stays : ∀ {input start stop value},
      parser input start = .done value stop → stop.index = start.index) : Settles false parser where
  settles _ run := .inr ⟨rfl, by rw [stays run]⟩

/-- A parser that never succeeds settles. -/
theorem Settles.of_fails {parser : Parser α}
    (fails : ∀ {input start stop value}, parser input start ≠ .done value stop) :
    Settles true parser where
  settles _ run := absurd run fails

/-- What settles for certain settles. -/
theorem Settles.weaken {parser : Parser α} (settles : Settles certain parser) :
    Settles false parser where
  settles scanned run := (settles.settles scanned run).imp id fun same => ⟨rfl, same.2⟩

instance pure_settles (value : α) : Settles false (pure value : Parser α) :=
  .of_stays fun run => by rw [← (Outcome.done.inj run).2]

instance position_settles : Settles false position := .of_stays fun run => by
  rw [← (Outcome.done.inj run).2]

instance cursor_settles : Settles false cursor := .of_stays fun run => by
  rw [← (Outcome.done.inj run).2]

instance reference_settles : Settles false reference := .of_stays fun run => by
  rw [← (Outcome.done.inj run).2]

instance peek_settles : Settles false peek := .of_stays fun run => by rw [← (peek_done run).2]

instance peekThat_settles (property : Token → Bool) : Settles false (peekThat property) :=
  .of_stays fun run => by rw [(peekThat_done run).1]

instance peekIs_settles (kind : TokenKind) : Settles false (peekIs kind) := peekThat_settles _

instance peekSpelled_settles (kind : TokenKind) (lexeme : Text) :
    Settles false (peekSpelled kind lexeme) :=
  peekThat_settles _

instance fail_settles (expected : List String) : Settles true (fail expected : Parser α) :=
  .of_fails fun run => fail_ne_done _ _ _ _ _ run

instance interrupt_settles (interruption : Interruption) :
    Settles true (interrupt interruption : Parser α) :=
  .of_fails nofun

instance whitespace_settles : Settles false whitespace where
  settles _ run := .inr ⟨rfl, Input.readBefore_whitespace run⟩

/-- Reading a token that waits for nothing settles. -/
theorem Settles.satisfy {property : Token → Bool} (label : String)
    (rests : ∀ token, property token = true → token.kind ≠ .eof ∧ token.kind.waits = false) :
    Settles true (satisfy property label) where
  settles {input start _ token} scanned run := by
    obtain ⟨found, ⟨-, solid, holds⟩, rfl⟩ := satisfy_done run
    obtain ⟨notEnd, waits⟩ := rests token holds
    have inside : start.index < input.tokens.size := by
      by_contra outside
      exact notEnd (scanned.eof_of_size_le found (by omega))
    have here : input.tokens[start.index]? = some token := by
      rw [Input.tokenAt?, Array.getElem?_eq_getElem inside] at found
      rw [Array.getElem?_eq_getElem inside]
      exact found
    refine .inl ⟨token, ?_, waits⟩
    show token ∈ (input.readBefore (start.index + 1)).head?
    rw [Input.readBefore_succ here solid]
    rfl

/-- Reading a token of a kind that waits for nothing settles. -/
theorem token_settles {kind : TokenKind} (label : String) (notEnd : kind ≠ .eof)
    (waits : kind.waits = false) : Settles true (token kind label) := by
  refine .satisfy label fun token holds => ?_
  rw [beq_iff_eq.mp holds]
  exact ⟨notEnd, waits⟩

section Tokens

variable (label : String)

instance lowerIdentifierToken_settles : Settles true (token .lowerIdentifier label) :=
  token_settles _ (by simp) rfl

instance upperIdentifierToken_settles : Settles true (token .upperIdentifier label) :=
  token_settles _ (by simp) rfl

instance shaderToken_settles : Settles true (token .shader label) := token_settles _ (by simp) rfl

instance rightParenToken_settles : Settles true (token .rightParen label) :=
  token_settles _ (by simp) rfl

instance rightBraceToken_settles : Settles true (token .rightBrace label) :=
  token_settles _ (by simp) rfl

instance rightBracketToken_settles : Settles true (token .rightBracket label) :=
  token_settles _ (by simp) rfl

end Tokens

/-! ## Combinators -/

/-- A sequence settles if what it ends with does for certain. -/
instance bindLast_settles (parser : Parser α) (next : α → Parser β)
    [last : ∀ value, Settles true (next value)] : Settles true (parser >>= next) where
  settles scanned run := by
    obtain ⟨value, _, -, rest⟩ := bind_done.mp run
    exact .inl (((last value).settles scanned rest).resolve_right nofun)

/-- A sequence settles as its first part does if the second one settles. -/
instance bindFirst_settles (parser : Parser α) (next : α → Parser β)
    [first : Settles certain parser] [last : ∀ value, Settles false (next value)] :
    Settles certain (parser >>= next) where
  settles scanned run := by
    obtain ⟨value, middle, begins, rest⟩ := bind_done.mp run
    rcases (last value).settles scanned rest with settled | ⟨-, same⟩
    · exact .inl settled
    · have earlier := first.settles scanned begins
      rw [Input.Settled, same]
      exact earlier

instance indented_settles : Settles false indented := .of_stays fun run => by
  rw [(indented_done run).1]

instance aligned_settles : Settles false aligned := .of_stays fun run => by
  rw [(aligned_done run).1]

instance ite_settles (condition : Prop) [Decidable condition] (yes no : Parser α)
    [Settles certain yes] [Settles certain no] :
    Settles certain (if condition then yes else no) := by
  split <;> infer_instance

section Combinators

variable (parser : Parser α) [settles : Settles certain parser]

instance map_settles (change : α → β) : Settles certain (change <$> parser) :=
  bindFirst_settles parser fun value => pure (change value)

instance attempt_settles : Settles certain (attempt parser) :=
  ⟨fun scanned run => settles.settles scanned (attempt_done.mp run)⟩

instance expecting_settles (label : String) : Settles certain (expecting label parser) :=
  ⟨fun scanned run => settles.settles scanned (expecting_done run)⟩

instance located_settles : Settles certain (located parser) :=
  ⟨fun scanned run => settles.settles scanned (located_done run).2⟩

instance trackNewline_settles : Settles certain (trackNewline parser) :=
  ⟨fun scanned run => settles.settles scanned (trackNewline_done run).1⟩

instance withReference_settles : Settles certain (withReference parser) where
  settles scanned run := by
    obtain ⟨_, inner, rfl⟩ := withReference_done run
    have settled := settles.settles scanned inner
    exact settled

instance optional_settles : Settles false (optional parser) where
  settles scanned run := by
    rcases optional_done run with ⟨_, -, inner⟩ | ⟨-, rfl⟩
    · exact settles.weaken.settles scanned inner
    · exact .inr ⟨rfl, rfl⟩

instance commitIf_settles (check : Parser β) : Settles certain (commitIf check parser) where
  settles scanned run := by
    obtain ⟨_, _, looked, rest⟩ := bind_done.mp run
    obtain ⟨rfl, -⟩ := lookAhead_done looked
    exact settles.settles scanned rest

end Combinators

/-- Behind a part that may be absent, what follows it settles for certain if the part is there. -/
theorem Settles.bindOptional {parser : Parser α} {next : Option α → Parser β}
    (present : ∀ value, Settles true (next (some value))) (absent : Settles false (next none)) :
    Settles false (optional parser >>= next) where
  settles scanned run := by
    obtain ⟨found, _, looked, rest⟩ := bind_done.mp run
    rcases optional_done looked with ⟨value, rfl, -⟩ | ⟨rfl, rfl⟩
    · exact .inl (((present value).settles scanned rest).resolve_right nofun)
    · exact absent.settles scanned rest

/-- Where a part may be absent, it settles for certain, or else what stands in its place does. -/
theorem Settles.bindEither {parser : Parser α} {next : Option α → Parser β}
    (part : Settles true parser) (present : ∀ value, Settles false (next (some value)))
    (absent : Settles true (next none)) : Settles true (optional parser >>= next) where
  settles scanned run := by
    obtain ⟨found, _, looked, rest⟩ := bind_done.mp run
    rcases optional_done looked with ⟨value, rfl, inner⟩ | ⟨rfl, rfl⟩
    · rcases (present value).settles scanned rest with settled | ⟨-, same⟩
      · exact .inl settled
      · rw [Input.Settled, same]
        exact part.settles scanned inner
    · exact absent.settles scanned rest

/-- Alternatives that settle for certain. -/
class AllSettle (parsers : List (Parser α)) : Prop where
  /-- Each of them does. -/
  each : ∀ parser ∈ parsers, Settles true parser

instance nil_allSettle : AllSettle ([] : List (Parser α)) := ⟨List.forall_mem_nil _⟩

instance cons_allSettle (parser : Parser α) (rest : List (Parser α)) [first : Settles true parser]
    [others : AllSettle rest] : AllSettle (parser :: rest) :=
  ⟨List.forall_mem_cons.mpr ⟨first, others.each⟩⟩

instance append_allSettle (front rest : List (Parser α)) [first : AllSettle front]
    [others : AllSettle rest] : AllSettle (front ++ rest) :=
  ⟨List.forall_mem_append.mpr ⟨first.each, others.each⟩⟩

/-- A choice settles if each of its alternatives does. -/
theorem choiceAfter_settles (label : Option String) (expected : List String)
    (alternatives : List (Parser α)) [all : AllSettle alternatives] :
    Settles true (choiceAfter label expected alternatives) where
  settles scanned run := by
    obtain ⟨parser, member, chosen⟩ := choiceAfter_done run
    exact (all.each parser member).settles scanned chosen

instance choice_settles (alternatives : List (Parser α)) [AllSettle alternatives] :
    Settles true (choice alternatives) :=
  choiceAfter_settles _ _ _

instance choiceNamed_settles (label : String) (alternatives : List (Parser α))
    [AllSettle alternatives] : Settles true (choiceNamed label alternatives) :=
  choiceAfter_settles _ _ _

/-- A bound from the input makes no difference. -/
theorem Settles.bounded {parsers : Nat → Parser α} (each : ∀ bound, Settles certain (parsers bound))
    (limit : Input → Nat) : Settles certain (fun input => parsers (limit input) input) :=
  ⟨fun scanned run => (each _).settles scanned run⟩

/-- Values settle under every bound. -/
theorem valuesUpTo_settles (parser : Parser (Option α)) [Settles certain parser] (bound : Nat) :
    Settles false (valuesUpTo parser bound) := by
  induction bound with
  | zero => exact (interrupt_settles _).weaken
  | succ bound ih =>
    unfold valuesUpTo
    refine @bindFirst_settles _ _ _ _ _ inferInstance fun before =>
      @bindFirst_settles _ _ _ _ _ inferInstance fun found => ?_
    split <;> infer_instance

instance many_settles (parser : Parser α) [Settles certain parser] : Settles false (many parser) :=
  .bounded (valuesUpTo_settles (some <$> parser)) Input.repetitionLimit

section Sequences

variable (close : TokenKind) (item : Parser α) (label : String) [Settles true (token close label)]

/-- Items settle under every bound. -/
theorem itemsUpTo_settles (bound : Nat) (before : Comments) :
    Settles true (itemsUpTo close item label bound before) := by
  induction bound generalizing before with
  | zero => exact interrupt_settles _
  | succ bound ih =>
    unfold itemsUpTo
    infer_instance

instance separated_settles : Settles true (separated close item label) := by
  have items (before : Comments) : Settles true (fun input =>
      itemsUpTo close item label input.repetitionLimit before input) :=
    .bounded (fun bound => itemsUpTo_settles close item label bound before) Input.repetitionLimit
  unfold separated
  refine @bindLast_settles _ _ _ _ fun before => @bindLast_settles _ _ _ _ fun closes => ?_
  split
  · infer_instance
  · exact @bindFirst_settles _ _ _ _ _ (items before) inferInstance

instance group_settles (opening : TokenKind) : Settles true (group opening close item label) := by
  unfold group; infer_instance

end Sequences

end Settles

end Parser

/-! ## The grammar -/

namespace Grammar

set_option synthInstance.maxSize 512

variable {certain : Bool}

/-! ### Words -/

instance lowerName_settles : Settles true lowerName := by unfold lowerName; infer_instance

instance upperName_settles : Settles true upperName := by unfold upperName; infer_instance

instance dottedUpperNames_settles : Settles false dottedUpperNames := by
  unfold dottedUpperNames
  infer_instance

instance dottedLowerName_settles : Settles true dottedLowerName := by
  unfold dottedLowerName
  infer_instance

instance qualifiedUpperName_settles : Settles true qualifiedUpperName := by
  unfold qualifiedUpperName
  infer_instance

instance parenthesizedOperator_settles : Settles true parenthesizedOperator := by
  unfold parenthesizedOperator; infer_instance

instance nameReference_settles : Settles true nameReference := by
  have named (first : Text) (rest : List Text) (found : Option Text) : Settles false (do
      match found with
      | some name => return Reference.value ⟨first :: rest, name⟩
      | none => return .tag (.ofParts first rest)) := by
    split <;> infer_instance
  unfold nameReference
  infer_instance

instance literal_settles : Settles true literal := by
  have word (label : String) : Settles true (satisfy (fun token =>
        token.kind == .number || token.kind == .string || token.kind == .char) label) := by
    refine .satisfy label fun token holds => ?_
    have kinds : token.kind = .number ∨ token.kind = .string ∨ token.kind = .char := by
      simpa [or_assoc] using holds
    rcases kinds with same | same | same <;> rw [same] <;> decide
  have made (token : Token) : Settles false (do
      match token.kind with
      | .string => return Literal.ofString token.lexeme
      | .char => return .ofCharacter token.lexeme
      | _ =>
        match Literal.ofNumber? token.lexeme with
        | some number => return number
        | none => interrupt (.notInteger token.lexeme)) := by
    split
    · infer_instance
    · infer_instance
    · split
      · infer_instance
      · exact (interrupt_settles _).weaken
  unfold literal
  infer_instance

section Items

variable (item : Parser α) [Settles true item]

instance spacedItem_settles : Settles true (spacedItem item) := by unfold spacedItem; infer_instance

instance spaced_settles : Settles false (spaced item) := by unfold spaced; infer_instance

instance spacedArgument_settles : Settles true (spacedArgument item) := by
  rw [spacedArgument_eq]
  infer_instance

instance link_settles (connective : Parser Token) : Settles true (link connective item) := by
  unfold link
  infer_instance

instance joined_settles (connective : Parser Token) : Settles true (joined connective item) := by
  unfold joined; infer_instance

end Items

/-! ### Patterns -/

instance patternOf_settles (node : Parser (PatternNode Pattern)) [Settles certain node] :
    Settles certain (patternOf node) := by unfold patternOf; infer_instance

instance recordPattern_settles : Settles true recordPattern := by
  unfold recordPattern
  refine @bindFirst_settles _ _ _ _ _ _ fun ⟨contents, _⟩ => ?_
  dsimp only
  split
  · exact (fail_settles _).weaken
  · infer_instance

instance wordPattern_settles : Settles true wordPattern := by unfold wordPattern; infer_instance

section Patterns

variable (pattern : Parser Pattern)

instance tuplePattern_settles : Settles true (tuplePattern pattern) := by
  unfold tuplePattern
  refine @bindFirst_settles _ _ _ _ _ _ fun ⟨contents, _⟩ => ?_
  dsimp only
  split <;> infer_instance

instance listPattern_settles : Settles true (listPattern pattern) := by
  unfold listPattern
  refine @bindFirst_settles _ _ _ _ _ _ fun ⟨contents, _⟩ => ?_
  dsimp only
  split <;> infer_instance

instance patternTermOver_settles : Settles true (patternTermOver pattern) := by
  unfold patternTermOver
  infer_instance

variable [Settles true pattern]

instance patternOperand_settles : Settles true (patternOperand pattern) := by
  unfold patternOperand
  infer_instance

instance consPattern_settles : Settles true (consPattern pattern) := by
  unfold consPattern
  refine @bindLast_settles _ _ _ _ fun start => @bindFirst_settles _ _ _ _ _ _ fun found => ?_
  split <;> infer_instance

instance patternOver_settles : Settles true (patternOver pattern) := by
  have named (start : Position) (pattern : Pattern) : Settles false (do
      match ← optional aliasKeyword with
      | none => return pattern
      | some before =>
        let after ← whitespace
        let name ← lowerName
        return ⟨⟨start, ← position⟩, .named (.post pattern before) (.pre after name)⟩) :=
    .bindOptional (fun before => inferInstance) inferInstance
  unfold patternOver
  infer_instance

end Patterns

instance patternTermWithin_settles (levels : Nat) : Settles true (patternTermWithin levels) := by
  cases levels <;> unfold patternTermWithin <;> infer_instance

instance patternTerm_settles : Settles true patternTerm :=
  .bounded patternTermWithin_settles Input.nestingLimit

instance pattern_settles : Settles true pattern := by unfold pattern; infer_instance

/-! ### Types -/

instance typeOf_settles (node : Parser (TypeNode TypeExpression)) [Settles certain node] :
    Settles certain (typeOf node) := by unfold typeOf; infer_instance

section Types

variable (type : Parser TypeExpression)

instance tupleType_settles : Settles true (tupleType type) := by
  unfold tupleType
  refine @bindFirst_settles _ _ _ _ _ _ fun ⟨contents, _⟩ => ?_
  dsimp only
  split <;> infer_instance

instance recordType_settles : Settles true (recordType type) := by unfold recordType; infer_instance

instance typeTermOver_settles : Settles true (typeTermOver type) := by
  unfold typeTermOver
  infer_instance

variable [Settles true type]

instance typeOperand_settles : Settles true (typeOperand type) := by
  unfold typeOperand
  infer_instance

instance typeOver_settles : Settles true (typeOver type) := by
  have made (start : Position)
    (found : (Commented TypeExpression × List (Commented TypeExpression)) × Bool) :
    Settles false (do
      match found with
      | ((first, []), _) => return first.value
      | ((first, rest), multiline) =>
        return (⟨⟨start, ← position⟩, .function first rest multiline⟩ : TypeExpression)) := by
    split <;> infer_instance
  unfold typeOver
  infer_instance

end Types

instance typeTermWithin_settles (levels : Nat) : Settles true (typeTermWithin levels) := by
  cases levels <;> unfold typeTermWithin <;> infer_instance

instance typeTerm_settles : Settles true typeTerm :=
  .bounded typeTermWithin_settles Input.nestingLimit

instance typeExpression_settles : Settles true typeExpression := by
  unfold typeExpression
  infer_instance

/-! ### Expressions -/

section Chains

variable (term last : Parser α) (operator : Parser ω) [Settles true term] [Settles true last]

instance chainClause_settles : Settles true (chainClause term last operator) := by
  unfold chainClause
  infer_instance

instance chainStep_settles : Settles true (chainStep term last operator) := by
  unfold chainStep
  infer_instance

/-- The clauses of a chain settle under every bound. -/
theorem clausesUpTo_settles (bound : Nat) :
    Settles false (clausesUpTo term last operator bound) := by
  induction bound with
  | zero => exact (interrupt_settles _).weaken
  | succ bound ih =>
    unfold clausesUpTo
    refine @bindFirst_settles _ _ _ _ _ _ fun found => ?_
    split <;> infer_instance

instance clauses_settles : Settles false (clauses term last operator) :=
  .bounded (clausesUpTo_settles term last operator) Input.repetitionLimit

instance operatorChain_settles : Settles true (operatorChain term last operator) := by
  unfold operatorChain; infer_instance

end Chains

instance expressionOf_settles (node : Parser (ExpressionNode Expression)) [Settles certain node] :
    Settles certain (expressionOf node) := by unfold expressionOf; infer_instance

instance literalTerm_settles : Settles true literalTerm := by unfold literalTerm; infer_instance

instance nameTerm_settles : Settles true nameTerm := by unfold nameTerm; infer_instance

instance accessorTerm_settles : Settles true accessorTerm := by unfold accessorTerm; infer_instance

instance fieldAccess_settles : Settles true fieldAccess := by unfold fieldAccess; infer_instance

instance shaderTerm_settles : Settles true shaderTerm := by unfold shaderTerm; infer_instance

instance operatorTerm_settles : Settles true operatorTerm := by unfold operatorTerm; infer_instance

instance tupleFunctionTerm_settles : Settles true tupleFunctionTerm := by
  unfold tupleFunctionTerm
  infer_instance

section Expressions

variable (expression : Parser Expression)

instance rangeTerm_settles : Settles true (rangeTerm expression) := by
  unfold rangeTerm
  infer_instance

instance bracketTerm_settles : Settles true (bracketTerm expression) := by
  unfold bracketTerm listTerm
  infer_instance

instance tupleTerm_settles : Settles true (tupleTerm expression) := by
  have node : Settles true (do
      let (contents, multiline) ← group .leftParen .rightParen expression "')'"
      match contents.items with
      | [] => return ExpressionNode.unit contents.trailing
      | [only] => return .parens only
      | elements => return .tuple elements multiline) := by
    refine @bindFirst_settles _ _ _ _ _ _ fun ⟨contents, _⟩ => ?_
    dsimp only
    split <;> infer_instance
  unfold tupleTerm
  infer_instance

instance parensTerm_settles : Settles true (parensTerm expression) := by
  unfold parensTerm
  infer_instance

instance recordTerm_settles : Settles true (recordTerm expression) := by
  unfold recordTerm
  infer_instance

variable [Settles true expression]

instance negationTerm_settles : Settles true (negationTerm expression) := by
  unfold negationTerm
  infer_instance

instance accessible_settles : Settles true (accessible expression) := by
  unfold accessible
  infer_instance

instance termOver_settles (inner : Parser Expression) :
    Settles true (termOver inner expression) := by
  unfold termOver; infer_instance

instance application_settles : Settles true (application expression) := by
  have made (start : Position) (head : Expression) (headCrossed : Bool)
      (arguments : List (Commented Expression × Bool)) : Settles false (do
      match arguments with
      | [] => return head
      | first :: rest =>
        let layout := applicationLayout headCrossed first.2 (rest.map (·.2))
        return (⟨⟨start, ← position⟩,
          .application head ((first :: rest).map (·.1)) layout⟩ : Expression)) := by
    split <;> infer_instance
  unfold application
  infer_instance

instance chainExpression_settles (last : Parser Expression) [Settles true last] :
    Settles true (chainExpression expression last) := by
  unfold chainExpression
  refine @bindFirst_settles _ _ _ _ _ _ fun chain => ?_
  split <;> infer_instance

instance conditional_settles : Settles true (conditional expression) := by
  unfold conditional
  infer_instance

instance lambda_settles : Settles true (lambda expression) := by unfold lambda; infer_instance

instance branch_settles (leading : Comments) : Settles true (branch expression leading) := by
  unfold branch
  infer_instance

instance caseDistinction_settles : Settles true (caseDistinction expression) := by
  unfold caseDistinction
  infer_instance

instance definition_settles : Settles true (definition expression) := by
  unfold definition
  infer_instance

instance signature_settles : Settles true signature := by unfold signature; infer_instance

instance declaration_settles : Settles true (declaration expression) := by
  unfold declaration
  infer_instance

instance letExpression_settles : Settles true (letExpression expression) := by
  unfold letExpression
  infer_instance

instance openEnded_allSettle : AllSettle (openEnded expression) := by
  unfold openEnded
  infer_instance

instance expressionOver_settles (term : Parser Expression) [Settles true term] :
    Settles true (expressionOver expression term) := by unfold expressionOver; infer_instance

end Expressions

/-- Expressions and their terms settle at every depth. -/
theorem within_settles (levels : Nat) :
    Settles true (Nested.within levels).expression ∧ Settles true (Nested.within levels).term := by
  induction levels with
  | zero => exact ⟨interrupt_settles _, interrupt_settles _⟩
  | succ levels ih =>
    obtain ⟨expressions, terms⟩ := ih
    have outer : Settles true (Nested.within (levels + 1)).term :=
      termOver_settles (Nested.within levels).term (Nested.within levels).expression
    exact ⟨expressionOver_settles (Nested.within levels).expression
        (Nested.within (levels + 1)).term, outer⟩

instance expression_settles : Settles true expression :=
  .bounded (fun levels => (within_settles levels).1) Input.nestingLimit

/-! ### Modules -/

instance listing_settles : Settles true listing := by
  unfold listing
  refine @bindLast_settles _ _ _ _ fun _ => ?_
  have everything : Settles true everything := by unfold everything; infer_instance
  exact .bindEither everything (fun comments => inferInstance) inferInstance

instance moduleHeader_settles : Settles true moduleHeader := by unfold moduleHeader; infer_instance

instance importDeclaration_settles : Settles true importDeclaration := by
  unfold importDeclaration moduleName introduced; infer_instance

instance variant_settles : Settles true variant := by unfold variant; infer_instance

instance variantsUpTo_settles (bound : Nat) (before : Comments) :
    Settles true (variantsUpTo bound before) := by
  induction bound generalizing before with
  | zero => exact interrupt_settles _
  | succ bound ih =>
    unfold variantsUpTo
    exact @bindFirst_settles _ _ _ _ _ _ fun first =>
      .bindOptional (fun after => inferInstance) inferInstance

instance variants_settles (before : Comments) : Settles true (variants before) :=
  .bounded (fun bound => variantsUpTo_settles bound before) Input.repetitionLimit

instance typeDeclaration_settles : Settles true typeDeclaration := by
  have declared (aliasComments : Option Comments) (preName : Comments) (name : Text)
    (parameters : List (Commented Text)) (comments : Comments) : Settles true (do
        match aliasComments with
        | some preAlias =>
          let type ← typeExpression
          return TopLevel.typeAlias ⟨.pre (preAlias ++ preName) name, parameters,
            .pre comments type⟩
        | none =>
          return .datatype ⟨.pre preName name, parameters, ← variants comments⟩) := by
    split <;> infer_instance
  unfold typeDeclaration
  infer_instance

end Grammar

end Marginalia
