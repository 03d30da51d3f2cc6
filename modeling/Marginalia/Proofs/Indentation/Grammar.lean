import Marginalia.Proofs.Indentation.Continuation
import Marginalia.Proofs.Lockstep.Word
import Marginalia.Proofs.Tiling.Sequence

/-!
# Indentation in the grammar

Every rule of the grammar reads what is past the first column, if its first token is. Where a rule
checks the column itself the argument is about columns: arguments stand past the reference of
indentation, and the entries of a block are aligned with the first one, which follows a word that
waits for it.
-/

namespace Marginalia

open Marginalia.Parser

variable {α ω : Type} {before after : Bool}

/-! ## Columns that are checked -/

/-- The cursor is at the start of the next token, and that token is solid. -/
def Input.Poised (input : Input) (cursor : Cursor) : Prop :=
  ∀ token, input.tokens[cursor.index]? = some token → token.isComment = false ∧
    token.span.start = cursor.position

/-- Blanks and comments lead to the start of a solid token. -/
theorem Input.Scanned.poised {input : Input} (scanned : input.Scanned) {start stop : Cursor}
    {comments : Comments} (coherent : input.Coherent start)
    (run : whitespace input start = .done comments stop) : input.Poised stop := by
  obtain ⟨token, found, -, -⟩ := coherent
  obtain ⟨_, index, next, again, -, foundNext, -⟩ := scanned.whitespace_apply found
  obtain ⟨-, same⟩ := Outcome.done.inj (run.symm.trans again)
  obtain ⟨_, _, -, here⟩ := whitespace_done run
  intro token found
  constructor
  · rw [here] at found
    exact isComment_behind found
  · have atStop : input.tokenAt? stop.index = some token := by
      rw [Input.tokenAt?, found]
      rfl
    rw [same] at atStop ⊢
    obtain rfl := Option.some.inj (foundNext.symm.trans atStop)
    rfl

namespace Input.Poised

variable {s : Stretch} {start stop : Cursor}

/-- No solid token comes later than one that the cursor is at, so its column is all there is to
know. -/
theorem clear (poised : s.input.Poised stop) (past : s.Past stop.index) : s.Clear stop := by
  intro later lower comments inside below token found solid
  by_cases first : later = stop.index
  · subst first
    exact past inside below token found solid
  · have upper : later < s.input.tokens.size := (Array.getElem?_eq_some_iff.mp found).1
    have atStop := Array.getElem?_eq_getElem (show stop.index < s.input.tokens.size by omega)
    have comment := comments stop.index (Nat.le_refl _) (by omega) _ atStop
    rw [(poised _ atStop).1] at comment
    cases comment

/-- At the start of a token its column is that of the cursor. -/
theorem clear_of_column (poised : s.input.Poised stop) (past : 1 < stop.position.column) :
    s.Clear stop := by
  refine poised.clear fun _ _ token found _ => ?_
  rw [(poised token found).2]
  exact past

end Input.Poised

/-- Behind blanks, what is indented is past the first column. -/
theorem Stretch.leads_of_indented {s : Stretch} {start middle stop : Cursor} {comments : Comments}
    {parser : Parser α} {value : α} (indents : Indents true after parser) (fits : s.Fits start)
    (blanks : whitespace s.input start = .done comments middle)
    (run : (indented >>= fun _ => parser) s.input middle = .done value stop) :
    s.Leads after start stop := by
  obtain ⟨_, here, checked, rest⟩ := bind_done.mp run
  obtain ⟨rfl, past⟩ := indented_done checked
  have earlier : s.Leads false start here := whitespace_indents.leads s fits nofun blanks
  have fitsHere := earlier.fits fits
  have column : 1 < here.position.column := Nat.lt_of_le_of_lt fitsHere.reference past
  have clear := (s.scanned.poised fits.coherent blanks).clear_of_column column
  exact earlier.trans (indents.leads s fitsHere (fun _ => clear) rest)

/-! ## Blocks -/

namespace Stretch

variable {s : Stretch} {start middle stop : Cursor}

/-- The entries of a block are past the first column: they are measured from another column, or they
are behind the stretch. -/
def Deep (s : Stretch) (cursor : Cursor) : Prop :=
  1 < cursor.reference ∨ ∀ index, cursor.index ≤ index → s.Past index

/-- The entries stay past the first column further on in the block. -/
theorem Deep.follows (deep : s.Deep start) (follows : s.input.Follows start stop) :
    s.Deep stop := by
  rcases deep with past | behind
  · left
    rwa [Cursor.reference, follows.indentation]
  · exact .inr fun index lower => behind index (Nat.le_trans follows.index lower)

/-- A block that begins at a token known to be past the first column is measured from another
column. -/
theorem deep_of_poised (poised : s.input.Poised start) (clear : s.Clear start)
    (inside : s.first < start.index) :
    s.Deep { start with indentation := start.position.column :: start.indentation } := by
  cases found : s.input.tokens[start.index]? with
  | none =>
    refine .inr fun index lower _ _ token here => ?_
    have outside := Array.getElem?_eq_none_iff.mp found
    rw [Array.getElem?_eq_none (Nat.le_trans outside lower)] at here
    cases here
  | some token =>
    obtain ⟨solid, starts⟩ := poised token found
    by_cases below : start.index < s.limit
    · left
      have past := clear start.index (Nat.le_refl _) (fun i lower upper => by omega) inside below
        token found solid
      rw [starts] at past
      exact past
    · exact .inr fun index lower _ upper => absurd (Nat.lt_of_le_of_lt lower upper) below

/-- An entry that is aligned in a block is past the first column. -/
theorem Deep.clear (deep : s.Deep start) (poised : s.input.Poised start)
    (aligned : start.position.column = start.reference) : s.Clear start := by
  rcases deep with past | behind
  · exact poised.clear_of_column (aligned ▸ past)
  · exact poised.clear (behind _ (Nat.le_refl _))

/-- What is read again and again in a block, as long as the entries are past the first column. -/
theorem leads_of_many {parser : Parser α} {values : List α} (holds : Cursor → Prop)
    (step : ∀ {start stop value}, s.Fits start → holds start → parser s.input start =
      .done value stop → s.Leads false start stop ∧ holds stop) (fits : s.Fits start)
    (first : holds start) (run : many parser s.input start = .done values stop) :
    s.Leads false start stop ∧ holds stop := by
  have upTo : ∀ bound {start stop values}, s.Fits start → holds start →
      valuesUpTo (some <$> parser) bound s.input start = .done values stop →
        s.Leads false start stop ∧ holds stop := by
    intro bound
    induction bound with
    | zero =>
      intro start stop values _ _ run
      cases run
    | succ bound ih =>
      intro start stop values fits first run
      rcases valuesUpTo_some_done run with ⟨-, rfl⟩ | ⟨value, between, ran, ends⟩
      · exact ⟨fits.leads nofun, first⟩
      · obtain ⟨leads, second⟩ := step fits first ran
        rcases ends with ⟨-, rfl⟩ | ⟨rest, -, further⟩
        · exact ⟨leads, second⟩
        · obtain ⟨others, last⟩ := ih (leads.fits fits) second further
          exact ⟨leads.trans others, last⟩
  exact upTo _ fits first run

end Stretch

/-- A block behind a word: the blanks behind the word lead to its first entry, which the word waits
for. -/
theorem Parser.Indents.block {β γ δ : Type} {word : Parser α} {blanks : Parser β}
    {entries : β → Parser γ} {rest : β → γ → Parser δ} (waits : Indents before true word)
    (reads : ∀ {input start stop value}, word input start = .done value stop →
      start.index < stop.index) (spaces : ∀ {input start stop value}, blanks input start =
      .done value stop → ∃ comments, whitespace input start = .done comments stop)
    (block : ∀ found (s : Stretch) {start stop value}, s.Fits start → s.Deep start → s.input.Poised
      start → entries found s.input start = .done value stop → s.Leads false start stop)
    (further : ∀ found value, Indents false after (rest found value)) :
    Indents before after (word >>= fun _ => blanks >>= fun found =>
      withReference (entries found) >>= rest found) where
  leads s start stop value fits clear run := by
    obtain ⟨_, behind, ranWord, run⟩ := bind_done.mp run
    obtain ⟨found, here, ranBlanks, run⟩ := bind_done.mp run
    obtain ⟨result, last, ranBlock, run⟩ := bind_done.mp run
    obtain ⟨comments, ranSpace⟩ := spaces ranBlanks
    obtain ⟨inner, ranEntries, rfl⟩ := withReference_done ranBlock
    have first := waits.leads s fits clear ranWord
    have fitsBehind := first.fits fits
    have second := whitespace_indents.leads s fitsBehind first.clear ranSpace
    have fitsHere := second.fits fitsBehind
    have poised := s.scanned.poised fitsBehind.coherent ranSpace
    have inside : s.first < here.index :=
      Nat.lt_of_le_of_lt fits.inside (Nat.lt_of_lt_of_le (reads ranWord) second.follows.index)
    have deep := Stretch.deep_of_poised poised (second.clear rfl) inside
    have fitsInner : s.Fits { here with indentation := here.position.column :: here.indentation } :=
      ⟨fitsHere.coherent, fitsHere.column, fitsHere.column, fitsHere.inside⟩
    have third := block found s fitsInner deep poised ranEntries
    have outer : s.Leads false here { inner with indentation := here.indentation } :=
      ⟨⟨rfl, third.follows.index, third.follows.offset, third.follows.coherent⟩, third.column,
        third.past, nofun⟩
    have leads := (first.trans second).trans outer
    exact leads.trans ((further found result).leads s (leads.fits fits) nofun run)

/-- A reserved word that is read is a token. -/
theorem Parser.keyword_advances {word : String} {input : Input} {start stop : Cursor}
    {token : Token} (run : keyword word input start = .done token stop) :
    start.index < stop.index := by
  obtain ⟨-, -, rfl⟩ := satisfy_done run
  exact Nat.lt_succ_self _

namespace Grammar

section Arguments

variable (item : Parser α) [items : Indents true after item]

/-- An item stands past the reference of indentation. -/
instance spacedItem_indents : Indents before after (spacedItem item) where
  leads s start stop value fits _ run := by
    obtain ⟨comments, middle, blanks, rest⟩ := bind_done.mp (attempt_done.mp run)
    exact Stretch.leads_of_indented inferInstance fits blanks rest

/-- An argument stands past the reference of indentation. -/
instance spacedArgument_indents : Indents before after (spacedArgument item) where
  leads s start stop value fits _ run := by
    rw [spacedArgument_eq] at run
    obtain ⟨first, _, told, rest⟩ := bind_done.mp (attempt_done.mp run)
    obtain ⟨rfl, rfl⟩ := Outcome.done.inj told
    obtain ⟨comments, middle, blanks, rest⟩ := bind_done.mp rest
    obtain ⟨second, _, told, rest⟩ := bind_done.mp rest
    obtain ⟨rfl, rfl⟩ := Outcome.done.inj told
    obtain ⟨minus, _, looked, rest⟩ := bind_done.mp rest
    obtain ⟨rfl, -⟩ := peekThat_done looked
    split at rest
    · exact absurd rest (fail_ne_done _ _ _ _ _)
    · exact Stretch.leads_of_indented (.bind items inferInstance) fits blanks rest

instance spaced_indents : Indents before false (spaced item) := by unfold spaced; infer_instance

end Arguments

/-! ## Words -/

instance lowerName_indents : Indents true false lowerName := by unfold lowerName; infer_instance

instance upperName_indents : Indents true false upperName := by unfold upperName; infer_instance

instance dot_indents : Indents before true dot := by unfold dot; infer_instance

instance dottedUpperNames_indents : Indents before false dottedUpperNames := by
  unfold dottedUpperNames; infer_instance

instance dottedLowerName_indents : Indents before false dottedLowerName := by
  unfold dottedLowerName
  infer_instance

instance qualifiedUpperName_indents : Indents true false qualifiedUpperName := by
  unfold qualifiedUpperName; infer_instance

instance nameReference_indents : Indents true false nameReference := by
  unfold nameReference
  have qualified (first : Text) (rest : List Text) : Indents false false (do
      match ← optional dottedLowerName with
      | some name => return Reference.value ⟨first :: rest, name⟩
      | none => return .tag (.ofParts first rest)) :=
    .bind inferInstance fun found => by split <;> infer_instance
  infer_instance

instance operatorSymbol_indents : Indents before true operatorSymbol := by
  unfold operatorSymbol
  infer_instance

instance infixOperator_indents : Indents before true infixOperator := by
  unfold infixOperator
  infer_instance

instance parenthesizedOperator_indents : Indents true false parenthesizedOperator := by
  unfold parenthesizedOperator; infer_instance

instance literal_indents : Indents true false literal := by
  unfold literal
  refine .bind (show Indents true false _ from .satisfy _ nofun nofun) fun token => ?_
  split
  · infer_instance
  · infer_instance
  · split <;> infer_instance

section Joined

variable (connective : Parser Token) (operand : Parser α) [Indents true false operand]
  [∀ before, Indents before true connective]

instance link_indents : Indents before false (link connective operand) := by
  unfold link
  infer_instance

instance joined_indents : Indents true false (joined connective operand) := by
  unfold joined
  infer_instance

end Joined

/-! ## Patterns -/

instance recordPattern_indents : Indents true false recordPattern := by
  unfold recordPattern
  refine .bind inferInstance fun ⟨contents, _⟩ => ?_
  dsimp only
  split <;> infer_instance

instance patternOf_indents (node : Parser (PatternNode Pattern)) [Indents before after node] :
    Indents before after (patternOf node) := by unfold patternOf; infer_instance

instance wordPattern_indents : Indents true false wordPattern := by
  unfold wordPattern
  infer_instance

instance aliasKeyword_indents : Indents before true aliasKeyword := by
  unfold aliasKeyword
  infer_instance

section Patterns

variable (pattern : Parser Pattern) [Indents true false pattern]

instance tuplePattern_indents : Indents true false (tuplePattern pattern) := by
  unfold tuplePattern
  refine .bind inferInstance fun ⟨contents, _⟩ => ?_
  dsimp only
  split <;> infer_instance

instance listPattern_indents : Indents true false (listPattern pattern) := by
  unfold listPattern
  refine .bind inferInstance fun ⟨contents, _⟩ => ?_
  dsimp only
  split <;> infer_instance

instance patternTermOver_indents : Indents true false (patternTermOver pattern) := by
  unfold patternTermOver; infer_instance

instance patternOperand_indents : Indents true false (patternOperand pattern) := by
  unfold patternOperand; infer_instance

instance consPattern_indents : Indents true false (consPattern pattern) := by
  unfold consPattern
  refine .bind inferInstance fun start => .bind inferInstance fun found => ?_
  split <;> infer_instance

instance patternOver_indents : Indents true false (patternOver pattern) := by
  unfold patternOver
  have continues (start : Position) (pattern : Pattern) : Indents false false (do
      match ← optional aliasKeyword with
      | none => return pattern
      | some before =>
        let after ← whitespace
        let name ← lowerName
        return ⟨⟨start, ← position⟩, .named (.post pattern before) (.pre after name)⟩) :=
    .bindOptional aliasKeyword_indents (fun _ => inferInstance) inferInstance
  infer_instance

end Patterns

instance patternTermWithin_indents (levels : Nat) :
    Indents true false (patternTermWithin levels) := by
  induction levels with
  | zero => unfold patternTermWithin; infer_instance
  | succ levels ih => unfold patternTermWithin; infer_instance

instance patternTerm_indents : Indents true false patternTerm :=
  .bounded patternTermWithin_indents Input.nestingLimit

instance pattern_indents : Indents true false pattern := by unfold pattern; infer_instance

/-! ## Types -/

instance typeOf_indents (node : Parser (TypeNode TypeExpression)) [Indents before after node] :
    Indents before after (typeOf node) := by unfold typeOf; infer_instance

instance recordBase_indents : Indents true true recordBase := by unfold recordBase; infer_instance

section Types

variable (type : Parser TypeExpression) [Indents true false type]

instance tupleType_indents : Indents true false (tupleType type) := by
  unfold tupleType
  refine .bind inferInstance fun ⟨contents, _⟩ => ?_
  dsimp only
  split <;> infer_instance

instance recordTypeField_indents : Indents true false (recordTypeField type) := by
  unfold recordTypeField; infer_instance

instance recordType_indents : Indents true false (recordType type) := by
  unfold recordType
  infer_instance

instance typeTermOver_indents : Indents true false (typeTermOver type) := by
  unfold typeTermOver
  infer_instance

instance typeOperand_indents : Indents true false (typeOperand type) := by
  unfold typeOperand
  infer_instance

instance typeOver_indents : Indents true false (typeOver type) := by
  unfold typeOver
  have whole : Indents true false (do
      let start ← position
      match ← trackNewline (joined (token .arrow "'->'") (typeOperand type)) with
      | ((first, []), _) => return first.value
      | ((first, rest), multiline) =>
        return ⟨⟨start, ← position⟩, .function first rest multiline⟩) :=
    .bind inferInstance fun start => .bind inferInstance fun found => by split <;> infer_instance
  infer_instance

end Types

instance typeTermWithin_indents (levels : Nat) : Indents true false (typeTermWithin levels) := by
  induction levels with
  | zero => unfold typeTermWithin; infer_instance
  | succ levels ih => unfold typeTermWithin; infer_instance

instance typeTerm_indents : Indents true false typeTerm :=
  .bounded typeTermWithin_indents Input.nestingLimit

instance typeExpression_indents : Indents true false typeExpression := by
  unfold typeExpression
  infer_instance

/-! ## Chains -/

section Chains

variable (term last : Parser α) [Indents true false term] [Indents true false last]
  (operator : Parser ω) [∀ before, Indents before true operator]

instance chainClause_indents : Indents before false (chainClause term last operator) := by
  unfold chainClause; infer_instance

instance chainStep_indents : Indents before false (chainStep term last operator) := by
  unfold chainStep; infer_instance

instance clausesUpTo_indents (bound : Nat) :
    Indents false false (clausesUpTo term last operator bound) := by
  induction bound with
  | zero => unfold clausesUpTo; infer_instance
  | succ bound ih =>
    unfold clausesUpTo
    refine .bind inferInstance fun found => ?_
    split <;> infer_instance

instance clauses_indents : Indents false false (clauses term last operator) :=
  .bounded (clausesUpTo_indents term last operator) Input.repetitionLimit

instance operatorChain_indents : Indents true false (operatorChain term last operator) := by
  unfold operatorChain; infer_instance

end Chains

/-! ## Terms -/

instance expressionOf_indents (node : Parser (ExpressionNode Expression))
    [Indents before after node] : Indents before after (expressionOf node) := by
  unfold expressionOf
  infer_instance

instance literalTerm_indents : Indents true false literalTerm := by
  unfold literalTerm
  infer_instance

instance nameTerm_indents : Indents true false nameTerm := by unfold nameTerm; infer_instance

instance accessorTerm_indents : Indents true false accessorTerm := by
  unfold accessorTerm
  infer_instance

instance fieldAccess_indents : Indents before false fieldAccess := by
  unfold fieldAccess
  infer_instance

instance shaderTerm_indents : Indents true false shaderTerm := by unfold shaderTerm; infer_instance

instance operatorTerm_indents : Indents true false operatorTerm := by
  unfold operatorTerm
  infer_instance

instance tupleFunctionTerm_indents : Indents true false tupleFunctionTerm := by
  unfold tupleFunctionTerm; infer_instance

section Expressions

variable (expression : Parser Expression) [Indents true false expression]

instance negationTerm_indents : Indents true false (negationTerm expression) := by
  unfold negationTerm; infer_instance

instance accessible_indents : Indents true false (accessible expression) := by
  unfold accessible
  infer_instance

instance rangeTerm_indents : Indents true false (rangeTerm expression) := by
  unfold rangeTerm
  infer_instance

instance listTerm_indents : Indents true false (listTerm expression) := by
  unfold listTerm
  infer_instance

instance bracketTerm_indents : Indents true false (bracketTerm expression) := by
  unfold bracketTerm
  infer_instance

instance tupleTerm_indents : Indents true false (tupleTerm expression) := by
  unfold tupleTerm
  have node : Indents true false (do
      let (contents, multiline) ← group .leftParen .rightParen expression "')'"
      match contents.items with
      | [] => return .unit contents.trailing
      | [only] => return .parens only
      | elements => return .tuple elements multiline : Parser (ExpressionNode Expression)) := by
    refine .bind inferInstance fun ⟨contents, _⟩ => ?_
    dsimp only
    split <;> infer_instance
  infer_instance

instance parensTerm_indents : Indents true false (parensTerm expression) := by
  unfold parensTerm
  infer_instance

instance recordPair_indents : Indents true false (recordPair expression) := by
  have sign : Indents false true
      (satisfy (fun token => token.kind == .equals || token.kind == .colon) "'='") := by
    have isSign : ∀ token : Token, (token.kind == .equals || token.kind == .colon) = true →
        token.kind = .equals ∨ token.kind = .colon := by
      intro token holds
      simpa using holds
    refine .satisfy _ (fun _ token holds => .inl ?_) fun _ token read holds => .inl ?_ <;>
      rcases isSign token holds with same | same <;> rw [same] <;> rfl
  unfold recordPair
  infer_instance

instance recordTerm_indents : Indents true false (recordTerm expression) := by
  unfold recordTerm
  infer_instance

instance termOver_indents (term : Parser Expression) [Indents true false term] :
    Indents true false (termOver expression term) := by unfold termOver; infer_instance

/-! ## Expressions -/

instance application_indents : Indents true false (application expression) := by
  unfold application
  have applied : Indents true false (do
      let start ← position
      let (head, headCrossed) ← trackNewline expression
      match ← many (trackNewline (spacedArgument expression)) with
      | [] => return head
      | first :: rest =>
        let layout := applicationLayout headCrossed first.2 (rest.map (·.2))
        return ⟨⟨start, ← position⟩, .application head ((first :: rest).map (·.1)) layout⟩) := by
    refine .bind inferInstance fun start => .bind inferInstance fun ⟨head, headCrossed⟩ =>
      .bind inferInstance fun found => ?_
    split <;> infer_instance
  infer_instance

instance chainExpression_indents (last : Parser Expression) [Indents true false last] :
    Indents true false (chainExpression expression last) := by
  unfold chainExpression
  refine .bind inferInstance fun chain => ?_
  split <;> infer_instance

instance ifClause_indents : Indents true false (ifClause expression) := by
  unfold ifClause
  infer_instance

instance elseKeyword_indents : Indents before true elseKeyword := by
  unfold elseKeyword
  infer_instance

instance elseIfClause_indents : Indents before false (elseIfClause expression) := by
  unfold elseIfClause; infer_instance

instance conditional_indents : Indents true false (conditional expression) := by
  unfold conditional
  infer_instance

instance paddedArrow_indents : Indents before true paddedArrow := by
  unfold paddedArrow
  infer_instance

instance lambda_indents : Indents true false (lambda expression) := by unfold lambda; infer_instance

/-! ### Blocks -/

/-- A branch that is aligned in a block is past the first column. -/
theorem branch_leads {s : Stretch} {start stop : Cursor} {leading : Comments}
    {value : Located (Branch Expression)} (fits : s.Fits start) (deep : s.Deep start)
    (run : branch expression leading s.input start = .done value stop) :
    s.Leads false start stop ∧ s.Deep stop := by
  obtain ⟨⟨found, pattern, arrow⟩, between, ranHead, ranBody⟩ := bind_done.mp run
  obtain ⟨comments, here, blanks, ranAligned⟩ := bind_done.mp (attempt_done.mp ranHead)
  obtain ⟨_, checkedHere, checked, ranPattern⟩ := bind_done.mp ranAligned
  obtain ⟨rfl, column⟩ := aligned_done checked
  have first : s.Leads false start checkedHere := whitespace_indents.leads s fits nofun blanks
  have fitsHere := first.fits fits
  have poised := s.scanned.poised fits.coherent blanks
  have clear := (deep.follows first.follows).clear poised column
  have head : Indents true true
        (do let pattern ← Grammar.pattern; return (comments, pattern, ← paddedArrow)) :=
    inferInstance
  have second := head.leads s fitsHere (fun _ => clear) ranPattern
  have body : Indents true false (do
      let body ← expression
      return (⟨⟨pattern.span.start, ← position⟩, ⟨leading ++ found, pattern, arrow.before,
        arrow.after, body⟩⟩ : Located (Branch Expression))) := inferInstance
  have third := body.leads s (second.fits fitsHere) second.clear ranBody
  have whole := first.trans (second.trans third)
  exact ⟨whole, deep.follows whole.follows⟩

instance caseDistinction_indents : Indents true false (caseDistinction expression) := by
  unfold caseDistinction
  have block (leading : Comments) (s : Stretch) {start stop value} (fits : s.Fits start)
      (deep : s.Deep start) (run : (do
        let first ← branch expression leading
        return first :: (← many (branch expression []))) s.input start = .done value stop) :
      s.Leads false start stop := by
    obtain ⟨first, between, ranFirst, run⟩ := bind_done.mp run
    obtain ⟨rest, _, ranRest, made⟩ := bind_done.mp run
    obtain ⟨-, rfl⟩ := Outcome.done.inj made
    obtain ⟨leads, deepBetween⟩ := branch_leads expression fits deep ranFirst
    have others := Stretch.leads_of_many s.Deep (branch_leads expression)
      (leads.fits fits) deepBetween ranRest
    exact leads.trans others.1
  have branches (subject : Commented Expression) (multiline : Bool) : Indents false false (do
      let _ ← keyword "of"
      let leading ← whitespace
      let branches ← withReference do
        let first ← branch expression leading
        return first :: (← many (branch expression []))
      return ExpressionNode.caseOf subject multiline branches) :=
    .block of_indents keyword_advances (fun run => ⟨_, run⟩)
      (fun leading s _ _ _ fits deep _ => block leading s fits deep) fun _ _ => inferInstance
  infer_instance

instance definitionHead_indents : Indents true false definitionHead := by
  unfold definitionHead
  have defined (pattern : Pattern) : Indents false false (match pattern.node with
      | .name _ | .operator _ => do return (pattern, ← spaced patternTerm)
      | _ => return (pattern, [])) := by
    split <;> infer_instance
  infer_instance

instance definition_indents : Indents true false (definition expression) := by
  unfold definition
  infer_instance

instance signatureHead_indents : Indents true true signatureHead := by
  unfold signatureHead
  infer_instance

instance signature_indents : Indents true false signature := by unfold signature; infer_instance

instance declaration_indents : Indents true false (declaration expression) := by
  unfold declaration
  infer_instance

instance letComments_indents : Indents before before letComments := by
  unfold letComments
  infer_instance

/-- The comments at a place in a `let` are blanks and comments. -/
theorem letComments_done {input : Input} {start stop : Cursor}
    {entries : List (Located (LetEntry Expression))}
    (run : letComments input start = .done entries stop) :
    ∃ comments, whitespace input start = .done comments stop := by
  obtain ⟨found, middle, ran, made⟩ := bind_done.mp run
  obtain ⟨-, rfl⟩ := Outcome.done.inj made
  exact ⟨_, (located_done ran).2⟩

/-- A declaration that is aligned in a block is past the first column. -/
theorem letBlock_leads {s : Stretch} {start stop : Cursor}
    {value : List (Located (LetEntry Expression))} (fits : s.Fits start)
    (block : s.Deep start ∧ s.input.Poised start)
    (run : letBlock expression s.input start = .done value stop) :
    s.Leads false start stop ∧ s.Deep stop ∧ s.input.Poised stop := by
  obtain ⟨deep, poised⟩ := block
  obtain ⟨_, here, checked, ranRest⟩ := bind_done.mp run
  obtain ⟨rfl, column⟩ := aligned_done checked
  obtain ⟨entry, between, ranEntry, ranBehind⟩ := bind_done.mp ranRest
  obtain ⟨comments, _, ranComments, made⟩ := bind_done.mp ranBehind
  obtain ⟨-, rfl⟩ := Outcome.done.inj made
  have declared : Indents true false (located do
      return LetEntry.declaration (← located (declaration expression))) := inferInstance
  have first := declared.leads s fits (fun _ => deep.clear poised column) ranEntry
  have fitsBetween := first.fits fits
  have second := letComments_indents.leads s fitsBetween first.clear ranComments
  have whole := first.trans second
  obtain ⟨_, blanks⟩ := letComments_done ranComments
  exact ⟨whole, deep.follows whole.follows, s.scanned.poised fitsBetween.coherent blanks⟩

instance letExpression_indents : Indents true false (letExpression expression) := by
  unfold letExpression
  have block (s : Stretch) {start stop value} (fits : s.Fits start) (deep : s.Deep start)
      (poised : s.input.Poised start) (run : (do
        let first ← letBlock expression
        return first :: (← many (letBlock expression))) s.input start = .done value stop) :
      s.Leads false start stop := by
    obtain ⟨first, between, ranFirst, run⟩ := bind_done.mp run
    obtain ⟨rest, _, ranRest, made⟩ := bind_done.mp run
    obtain ⟨-, rfl⟩ := Outcome.done.inj made
    obtain ⟨leads, blockBetween⟩ := letBlock_leads expression fits ⟨deep, poised⟩ ranFirst
    have others := Stretch.leads_of_many (fun cursor => s.Deep cursor ∧ s.input.Poised cursor)
      (letBlock_leads expression) (leads.fits fits) blockBetween ranRest
    exact leads.trans others.1
  have node : Indents true false (do
      let _ ← attempt (keyword "let")
      let leading ← letComments
      let blocks ← withReference do
        let first ← letBlock expression
        return first :: (← many (letBlock expression))
      let _ ← keyword "in"
      let bodyComments ← whitespace
      return ExpressionNode.letIn (leading ++ blocks.flatten) bodyComments (← expression)) :=
    .block inferInstance (fun run => keyword_advances (attempt_done.mp run)) letComments_done
      (fun _ s _ _ _ fits deep poised => block s fits deep poised) fun _ _ => inferInstance
  infer_instance

instance openEnded_allIndent : AllIndent true false (openEnded expression) := by
  unfold openEnded
  infer_instance

instance expressionOver_indents (term : Parser Expression) [Indents true false term] :
    Indents true false (expressionOver expression term) := by unfold expressionOver; infer_instance

end Expressions

/-- What may stand at any number of levels is indented. -/
theorem Nested.within_indents (levels : Nat) :
    Indents true false (within levels).expression ∧ Indents true false (within levels).term := by
  induction levels with
  | zero => exact ⟨interrupt_indents _, interrupt_indents _⟩
  | succ levels ih =>
    obtain ⟨expression, term⟩ := ih
    exact ⟨expressionOver_indents _ _, termOver_indents _ _⟩

instance term_indents : Indents true false term :=
  .bounded (fun levels => (Nested.within_indents levels).2) Input.nestingLimit

instance expression_indents : Indents true false expression :=
  .bounded (fun levels => (Nested.within_indents levels).1) Input.nestingLimit

end Grammar

end Marginalia
