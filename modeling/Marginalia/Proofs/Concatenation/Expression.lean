import Marginalia.Proofs.Concatenation.Nesting
import Marginalia.Proofs.Concatenation.Pattern
import Marginalia.Proofs.Spelling.Pattern

/-!
# Expressions carry over

The rules for expressions carry over from a shorter input to a longer one. A chain goes on with an
operator, a conditional with a word, and an application with an argument past the reference of
indentation: none of them is where a declaration begins. A branch of a case distinction is: it may
stand in the first column, and a declaration may begin with a pattern. But behind that pattern
stands no arrow.
-/

namespace Marginalia.Grammar

open Marginalia.Parser

set_option synthInstance.maxSize 512

variable {α ω : Type} {s : Sequel} {before between ahead atDeclaration : Bool} {manner : Manner}

/-! ## Behind a pattern at a declaration -/

/-- Two runs that have parted are at tokens of their inputs. -/
theorem place_of_parted {levels : List Nat} {l r : Cursor} (parted : s.Parted levels l r) :
    s.long.At r := by
  have inside := (Array.getElem?_eq_some_iff.mp s.opens).1
  refine ⟨s.long.tokens.toList.take s.first, s.opening,
    s.long.tokens.toList.drop (s.first + 1), ?_, ?_, ?_⟩
  · have here : s.long.tokens.toList.drop s.first = s.opening ::
        s.long.tokens.toList.drop (s.first + 1) := by
      have opens := s.opens
      rw [Array.getElem?_eq_getElem inside] at opens
      rw [List.drop_eq_getElem_cons (by simpa using inside), ← Option.some.inj opens]
      rfl
    rw [← here, List.take_append_drop]
  · rw [parted.right, List.length_take, Array.length_toList]
    exact (Nat.min_eq_left (Nat.le_of_lt inside)).symm
  · exact .inl (by rw [parted.right])

/-- Where tokens of a pattern have been read from a declaration on, there is neither an arrow nor
are there two dots. -/
theorem unread_behind_pattern {levels : List Nat} {l r cursor : Cursor} {read : List Token}
    {kind : TokenKind} (parted : s.Parted levels l r)
    (split : s.long.tokens.toList.drop r.index = read ++ s.long.tokens.toList.drop cursor.index)
    (plain : ∀ token ∈ read, token.parts = false)
    (sign : kind = .arrow ∨ kind = .range) (label : String) :
    ∃ error, token kind label s.long cursor = .failed (.rejected error) cursor := by
  rw [token, satisfy_apply]
  cases found : s.long.tokenAt? cursor.index with
  | none => exact ⟨_, rfl⟩
  | some token =>
    have unread : ¬ Readable (·.kind == kind) token cursor := by
      intro readable
      have isSign : token.kind = kind := beq_iff_eq.mp readable.2.2
      have notEnd : token.kind ≠ .eof := by
        rw [isSign]
        rcases sign with rfl | rfl <;> nofun
      have parts : token.parts = true := by
        rw [Token.parts, isSign]
        rcases sign with rfl | rfl <;> rfl
      have first : (s.long.tokens.toList.drop s.first).find? (·.parts) = some token := by
        have index : r.index = s.first := by rw [parted.right]
        rw [← index, split, s.scannedLong.drop_eq_cons found notEnd, List.find?_append,
          List.find?_eq_none.mpr fun other member => by simp [plain other member],
          List.find?_cons_of_pos parts]
        rfl
      obtain ⟨notArrow, notRange⟩ := s.declares token first
      rcases sign with rfl | rfl
      · exact notArrow isSign
      · exact notRange isSign
    simp only [if_neg unread]
    exact ⟨_, rfl⟩

/-- Tokens that are comments or the end of a source part nothing. -/
theorem parts_of_solidOf {tokens : List Token}
    (plain : ∀ token ∈ solidOf tokens, token.parts = false) :
    ∀ token ∈ tokens, token.parts = false := by
  intro token member
  by_cases solid : (!token.isComment && token.kind != .eof) = true
  · exact plain token (List.mem_filter.mpr ⟨member, solid⟩)
  · refine Token.parts_of_kind (fun sign => solid ?_) fun isWord => solid ?_
    · rw [Token.isComment]
      revert sign
      cases token.kind <;> decide
    · rw [Token.isComment, isWord]
      rfl

/-- No arrow stands behind a pattern at a declaration. -/
theorem arrow_unread {levels : List Nat} {l r cursor : Cursor} {found : Pattern}
    (parted : s.Parted levels l r) (run : pattern s.long r = .done found cursor) :
    ∃ error stop, paddedArrow s.long cursor = .failed (.rejected error) stop := by
  have leads := Input.Finishes.of_steps s.scannedLong (fun _ => pattern_steps) r
    (place_of_parted parted)
  rw [run] at leads
  cases leads with
  | done place _ =>
    obtain ⟨_, _, _, stands⟩ := place
    obtain ⟨comments, stop, _, _, _, blanks, -⟩ := stands.whitespace s.scannedLong
    obtain ⟨read, split, -, spelled⟩ :=
      reads_iff.mp (pattern_reads s.scannedLong) r found cursor run
    obtain ⟨passed, splitBlanks, -, none⟩ :=
      reads_iff.mp whitespace_reads cursor comments stop blanks
    have plain : ∀ token ∈ read ++ passed, token.parts = false := by
      refine parts_of_solidOf fun token member => ?_
      rw [solidOf_append] at member
      rcases List.mem_append.mp member with inPattern | inBlanks
      · exact spelled.parts found.inPattern_words token inPattern
      · exact none.parts rfl token inBlanks
    have splitAll : s.long.tokens.toList.drop r.index = (read ++ passed) ++
          s.long.tokens.toList.drop stop.index := by
      rw [split, splitBlanks, List.append_assoc]
    obtain ⟨error, unread⟩ := unread_behind_pattern parted splitAll plain (.inl rfl) "'->'"
    refine ⟨error, stop, ?_⟩
    rw [paddedArrow, padded, bind_apply, blanks]
    show ((token .arrow "'->'" >>= _) s.long stop) = _
    rw [bind_apply, unread]

/-- A branch does not begin with a declaration, nor at the end of a source. -/
instance branchHead_misses (comments comments' : Comments) :
    Misses s (aligned >>= fun _ => pattern >>= fun found => paddedArrow >>= fun arrow =>
      pure (comments, found, arrow)) (aligned >>= fun _ => pattern >>= fun found =>
      paddedArrow >>= fun arrow => pure (comments', found, arrow)) where
  misses {levels l r} parted := by
    have patternStops : Stops false false pattern := by
      unfold pattern patternOver consPattern joined patternOperand
      infer_instance
    have short :
      ∃ error after, (aligned >>= fun _ => pattern >>= fun found => paddedArrow >>= fun arrow =>
        pure (comments, found, arrow)) s.short l = .failed (.rejected error) after := by
      rw [bind_apply]
      rcases aligned_cases s.short l with done | ⟨_, rejected⟩
      · obtain ⟨_, same⟩ := rejected_of_stays (patternStops.short parted)
        rw [done]
        dsimp only
        rw [bind_apply, same]
        exact ⟨_, _, rfl⟩
      · rw [rejected]
        exact ⟨_, _, rfl⟩
    have long :
      ∃ error after, (aligned >>= fun _ => pattern >>= fun found => paddedArrow >>= fun arrow =>
        pure (comments', found, arrow)) s.long r = .failed (.rejected error) after := by
      rw [bind_apply]
      rcases aligned_cases s.long r with done | ⟨_, rejected⟩
      · have ends := Input.Finishes.of_steps s.scannedLong (fun _ => pattern_steps) r
          (place_of_parted parted)
        rw [done]
        dsimp only
        rw [bind_apply]
        cases run : pattern s.long r with
        | done found cursor =>
          obtain ⟨_, _, unread⟩ := arrow_unread parted run
          dsimp only
          rw [bind_apply, unread]
          exact ⟨_, _, rfl⟩
        | failed failure cursor =>
          rw [run] at ends
          cases ends
          exact ⟨_, _, rfl⟩
      · rw [rejected]
        exact ⟨_, _, rfl⟩
    exact .inr ⟨short, long⟩

/-! ## Chains -/

section Chains

variable (p q last last' : Parser α) (operator : Parser ω)
  [∀ before, Carries s before (.within false) .reads p q]
  [∀ before, Carries s before (.within false) .reads last last']
  [∀ before, Carries s before (.within true) .reads operator operator] [Stops true false operator]

instance chainClause_carries :
    Carries s true (.within false) .reads (chainClause p last operator)
      (chainClause q last' operator) := by
  unfold chainClause
  infer_instance

instance chainStep_carries :
    Carries s before (.within false) .reads (chainStep p last operator)
      (chainStep q last' operator) := by
  unfold chainStep commitIf
  infer_instance

/-- The clauses of a chain carry under every bound, and under one no smaller than it. -/
theorem clausesUpTo_carries (bound bound' : Nat) (le : bound ≤ bound') :
    Carries s before (.within false) .stays (clausesUpTo p last operator bound)
      (clausesUpTo q last' operator bound') := by
  induction bound generalizing before bound' with
  | zero =>
    unfold clausesUpTo
    exact ⟨fun _ _ => .cut⟩
  | succ bound ih =>
    obtain ⟨bound', rfl⟩ : ∃ more, bound' = more + 1 := ⟨bound' - 1, by omega⟩
    have again : Carries s false (.within false) .stays (clausesUpTo p last operator bound)
        (clausesUpTo q last' operator bound') := ih bound' (Nat.le_of_succ_le_succ le)
    have step : Carries s before (.within false) .stays (optional (chainStep p last operator))
          (optional (chainStep q last' operator)) :=
      (chainStep_carries p q last last' operator).optional (by simp)
    unfold clausesUpTo
    refine .bindStays step fun found => (?_ : Carries s false (.within false) .stays _ _)
    split <;> infer_instance

instance clauses_carries :
    Carries s before (.within false) .stays (clauses p last operator) (clauses q last' operator) :=
  .bounded Input.repetitionLimit s.repetition_le (clausesUpTo_carries p q last last' operator)

instance operatorChain_carries :
    Carries s before (.within false) .reads (operatorChain p last operator)
      (operatorChain q last' operator) := by
  unfold operatorChain
  infer_instance

end Chains

/-! ## Terms -/

instance expressionOf_stops (node : Parser (ExpressionNode Expression))
    [Stops atDeclaration false node] : Stops atDeclaration false (expressionOf node) := by
  unfold expressionOf
  infer_instance

instance expressionOf_carries (p q : Parser (ExpressionNode Expression))
    [Carries s before (.within ahead) .reads p q] :
    Carries s before (.within ahead) .reads (expressionOf p) (expressionOf q) := by
  unfold expressionOf
  infer_instance

instance literalTerm_carries : Carries s before (.within false) .reads literalTerm literalTerm := by
  unfold literalTerm; infer_instance

instance nameTerm_carries : Carries s before (.within false) .reads nameTerm nameTerm := by
  unfold nameTerm
  infer_instance

instance accessorTerm_carries :
    Carries s before (.within false) .reads accessorTerm accessorTerm := by
  unfold accessorTerm; infer_instance

instance fieldAccess_carries : Carries s before (.within false) .reads fieldAccess fieldAccess := by
  unfold fieldAccess; infer_instance

instance shaderTerm_carries : Carries s before (.within false) .reads shaderTerm shaderTerm := by
  unfold shaderTerm; infer_instance

instance operatorTerm_carries :
    Carries s before (.within false) .reads operatorTerm operatorTerm := by
  unfold operatorTerm; infer_instance

instance tupleFunctionTerm_carries :
    Carries s before (.within false) .reads tupleFunctionTerm tupleFunctionTerm := by
  unfold tupleFunctionTerm; infer_instance

/-- The sign between a field and its value is an equals sign or a colon. -/
theorem isAssignment_cases {token : Token}
    (holds : (token.kind == .equals || token.kind == .colon) = true) :
    token.kind = .equals ∨ token.kind = .colon := by
  simpa using holds

instance assignment_stops (label : String) :
    Stops atDeclaration false
      (satisfy (fun token => token.kind == .equals || token.kind == .colon) label) := by
  refine .satisfy label (fun token holds ends => ?_) fun _ token holds begins =>
    begins.apart (.inl ?_)
  · rcases isAssignment_cases holds with same | same <;> rw [ends] at same <;> cases same
  · rcases isAssignment_cases holds with same | same <;> rw [same] <;> rfl

instance assignment_carries (label : String) : Carries s before (.within true) .reads
    (satisfy (fun token => token.kind == .equals || token.kind == .colon) label)
    (satisfy (fun token => token.kind == .equals || token.kind == .colon) label) := by
  have plain : ∀ token : Token, (token.kind == .equals || token.kind == .colon) = true →
      token.kind ≠ .eof ∧ token.kind ≠ .keyword ∧ token.kind.waits = true := by
    intro token holds
    rcases isAssignment_cases holds with same | same <;> rw [same] <;> decide
  exact .satisfy label (fun token holds => (plain token holds).1)
    (fun token holds => (Token.plain_of_kind (plain token holds).2.1).1) (fun token holds =>
      (Token.plain_of_kind (plain token holds).2.1).2) fun _ token holds => (plain token holds).2.2

section Terms

variable (p q : Parser Expression) [∀ before, Carries s before (.within false) .reads p q]

instance negationTerm_carries :
    Carries s before (.within false) .reads (negationTerm p) (negationTerm q) := by
  unfold negationTerm; infer_instance

instance accessible_carries :
    Carries s before (.within false) .reads (accessible p) (accessible q) := by
  unfold accessible; infer_instance

instance rangeTerm_carries :
    Carries s before (.within false) .reads (rangeTerm p) (rangeTerm q) := by
  unfold rangeTerm padded; infer_instance

instance listTerm_carries : Carries s before (.within false) .reads (listTerm p) (listTerm q) := by
  unfold listTerm; infer_instance

instance bracketTerm_carries :
    Carries s before (.within false) .reads (bracketTerm p) (bracketTerm q) := by
  unfold bracketTerm; infer_instance

instance tupleTerm_carries :
    Carries s before (.within false) .reads (tupleTerm p) (tupleTerm q) := by
  unfold tupleTerm
  have node : Carries s before (.within false) .reads (do
      let (contents, multiline) ← group .leftParen .rightParen p "')'"
      match contents.items with
      | [] => return ExpressionNode.unit contents.trailing
      | [only] => return .parens only
      | elements => return .tuple elements multiline) (do
      let (contents, multiline) ← group .leftParen .rightParen q "')'"
      match contents.items with
      | [] => return ExpressionNode.unit contents.trailing
      | [only] => return .parens only
      | elements => return .tuple elements multiline) := by
    refine .bindReads inferInstance fun ⟨contents, _⟩ =>
      (?_ : Carries s false (.within false) .stays _ _)
    dsimp only
    split <;> infer_instance
  infer_instance

instance parensTerm_carries :
    Carries s before (.within false) .reads (parensTerm p) (parensTerm q) := by
  unfold parensTerm; infer_instance

instance recordPair_carries :
    Carries s before (.within false) .reads (recordPair p) (recordPair q) := by
  unfold recordPair; infer_instance

instance recordTerm_carries :
    Carries s before (.within false) .reads (recordTerm p) (recordTerm q) := by
  unfold recordTerm; infer_instance

end Terms

instance termOver_stops (expression term : Parser Expression) :
    Stops false false (termOver expression term) := by
  unfold termOver literalTerm bracketTerm shaderTerm rangeTerm listTerm accessorTerm negationTerm
    accessible nameTerm parensTerm operatorTerm tupleFunctionTerm tupleTerm recordTerm
  infer_instance

section Over

variable (p q t t' : Parser Expression) [∀ before, Carries s before (.within false) .reads p q]
  [∀ before, Carries s before (.within false) .reads t t']

instance termOver_carries :
    Carries s before (.within false) .reads (termOver p t) (termOver q t') := by
  unfold termOver; infer_instance

instance application_carries [Barren t] [Stops false false t'] :
    Carries s before (.within false) .reads (application t) (application t') := by
  have applied : Carries s before (.within false) .reads (do
      let start ← position
      let (head, headCrossed) ← trackNewline t
      match ← many (trackNewline (spacedArgument t)) with
      | [] => return head
      | first :: rest =>
        let layout := applicationLayout headCrossed first.2 (rest.map (·.2))
        return ⟨⟨start, ← position⟩, .application head ((first :: rest).map (·.1)) layout⟩) (do
      let start ← position
      let (head, headCrossed) ← trackNewline t'
      match ← many (trackNewline (spacedArgument t')) with
      | [] => return head
      | first :: rest =>
        let layout := applicationLayout headCrossed first.2 (rest.map (·.2))
        return ⟨⟨start, ← position⟩, .application head ((first :: rest).map (·.1)) layout⟩) := by
    refine .bindStays inferInstance fun start => .bindReads inferInstance fun ⟨head, headCrossed⟩ =>
      (?_ : Carries s false (.within false) .stays _ _)
    refine .bindStays inferInstance fun arguments => ?_
    split <;> infer_instance
  unfold application
  infer_instance

instance chainExpression_carries [Barren t] [Stops false false t'] :
    Carries s before (.within false) .reads (chainExpression t p) (chainExpression t' q) := by
  unfold chainExpression
  refine .bindReads inferInstance fun chain => (?_ : Carries s false (.within false) .stays _ _)
  split <;> infer_instance

end Over

/-! ## What extends as far right as possible -/

section OpenEnded

variable (p q : Parser Expression) [∀ before, Carries s before (.within false) .reads p q]

instance ifClause_carries : Carries s before .loose .reads (ifClause p) (ifClause q) := by
  unfold ifClause; infer_instance

instance elseKeyword_stops : Stops atDeclaration false elseKeyword := by
  unfold elseKeyword
  infer_instance

instance elseKeyword_carries : Carries s before (.within true) .reads elseKeyword elseKeyword := by
  unfold elseKeyword; infer_instance

instance elseIfClause_stops (expression : Parser Expression) :
    Stops atDeclaration false (elseIfClause expression) := by
  unfold elseIfClause; infer_instance

instance elseIfClause_carries :
    Carries s before .loose .reads (elseIfClause p) (elseIfClause q) := by
  unfold elseIfClause; infer_instance

instance conditional_carries :
    Carries s before (.within false) .reads (conditional p) (conditional q) := by
  have rest : Carries s false .loose .stays (many (elseIfClause p)) (many (elseIfClause q)) :=
    manyLoose_carries _ _
  unfold conditional
  infer_instance

instance paddedArrow_carries : Carries s false (.within true) .skips paddedArrow paddedArrow := by
  unfold paddedArrow padded; infer_instance

instance lambda_carries : Carries s before (.within false) .reads (lambda p) (lambda q) := by
  have applied : Carries s before (.within false) .reads (do
      let _ ← expecting "an anonymous function" (token .backslash "'\\'")
      let arguments ← spaced patternTerm
      if arguments.isEmpty then
        fail ["an argument pattern"]
      else
        let arrow ← paddedArrow
        return (arguments, arrow.before ++ arrow.after, ← p)) (do
      let _ ← expecting "an anonymous function" (token .backslash "'\\'")
      let arguments ← spaced patternTerm
      if arguments.isEmpty then
        fail ["an argument pattern"]
      else
        let arrow ← paddedArrow
        return (arguments, arrow.before ++ arrow.after, ← q)) := by
    refine .bindReads inferInstance fun _ => (?_ : Carries s true (.within false) .skips _ _)
    refine .bindStays inferInstance fun arguments => ?_
    split
    · exact (fail_carries _ _).toSkips
    · infer_instance
  unfold lambda
  infer_instance

instance branchHead_carries : Carries s before (.within true) .stays branchHead branchHead :=
  .of_free (by unfold branchHead; infer_instance)

instance branch_carries (leading : Comments) :
    Carries s before (.within false) .reads (branch p leading) (branch q leading) := by
  unfold branch; infer_instance

instance caseDistinction_carries :
    Carries s before (.within false) .reads (caseDistinction p) (caseDistinction q) := by
  unfold caseDistinction padded; infer_instance

instance definitionHead_carries :
    Carries s before (.within false) .reads definitionHead definitionHead := by
  have head : Carries s before (.within false) .reads (do
      let defined ← choice [attempt patternTerm,
          patternOf do return .operator (← parenthesizedOperator)]
      match defined.node with
      | .name _ | .operator _ => return (defined, ← spaced patternTerm)
      | _ => return (defined, [])) (do
      let defined ← choice [attempt patternTerm,
          patternOf do return .operator (← parenthesizedOperator)]
      match defined.node with
      | .name _ | .operator _ => return (defined, ← spaced patternTerm)
      | _ => return (defined, [])) := by
    refine .bindReads inferInstance fun defined => (?_ : Carries s false (.within false) .stays _ _)
    split <;> infer_instance
  unfold definitionHead
  infer_instance

instance definition_carries :
    Carries s before (.within false) .reads (definition p) (definition q) := by
  unfold definition padded; infer_instance

instance signatureHead_carries :
    Carries s before (.within true) .reads signatureHead signatureHead := by
  unfold signatureHead padded; infer_instance

instance signature_carries : Carries s before (.within false) .reads signature signature := by
  unfold signature; infer_instance

instance declaration_carries :
    Carries s before (.within false) .reads (declaration p) (declaration q) := by
  unfold declaration; infer_instance

instance letComments_carries : Carries s true (.within true) .stays letComments letComments := by
  unfold letComments; infer_instance

/-- The first word of a `let` goes in by one level. -/
theorem nesting_of_let {token : Token} (kind : token.kind = .keyword)
    (lexeme : token.lexeme = Text.ofString "let") : token.nesting = 1 := by
  simp [Token.nesting, kind, lexeme]

/-- The second word of a `let` goes out by one level. -/
theorem nesting_of_in {token : Token} (kind : token.kind = .keyword)
    (lexeme : token.lexeme = Text.ofString "in") : token.nesting = -1 := by
  have notLet : Text.ofString "in" ≠ Text.ofString "let" := by decide
  simp [Token.nesting, kind, lexeme, notLet]

/-- Reading one of the words of a `let` on both inputs, or a failure of both. -/
theorem letWord_meets {start : Cursor} (word : String) (level : Int) (ready : s.Ready start)
    (nesting : ∀ token : Token, token.kind = .keyword → token.lexeme = Text.ofString word →
      token.nesting = level) (plain : fixityKeyword? (Text.ofString word) = none)
    (open_ : 0 ≤ s.short.depth start.index + level) :
    (∃ token, start.index < s.count ∧ keyword word s.short start = .done token (past token start) ∧
      keyword word s.long start = .done token (past token start) ∧ s.Ready (past token start) ∧
      s.Ahead (start.index + 1) ∧
      s.short.depth (start.index + 1) = s.short.depth start.index + level) ∨
    ∃ error error', keyword word s.short start = .failed (.rejected error) start ∧
      keyword word s.long start = .failed (.rejected error') start := by
  have notEnd : ∀ token : Token, (token.kind == .keyword && token.lexeme == Text.ofString word) =
        true → token.kind ≠ .eof := by
    intro token holds ends
    rw [(isSpelled_iff.mp holds).1] at ends
    cases ends
  rcases ready.toAlong.satisfy (quoted word) notEnd with ⟨token, inside, found, holds, run, run'⟩ |
    rejected
  · obtain ⟨kind, lexeme⟩ := isSpelled_iff.mp holds
    have step := nesting token kind lexeme
    have notFixity : ¬ token.DeclaresFixity := by
      rintro ⟨-, some⟩
      rw [lexeme, plain] at some
      cases some
    have waits : token.kind.waits = true := by
      rw [kind]
      rfl
    have along : s.Along (past token start) :=
      ready.toAlong.past inside found (notEnd token holds) (by rw [step]; exact open_)
    refine .inl ⟨token, inside, run, run', ⟨along, ready.closes.succ found notFixity⟩,
      ready.closes.ahead inside found notFixity waits, ?_⟩
    rw [Input.depth_succ found, step]
  · exact .inr rejected

/-- Inside a `let` stand declarations, with comments between them. -/
theorem letBlock_deep : Deep s (.within true) .reads (letBlock p) (letBlock q) := by
  have checked : Deep s (.within true) .stays aligned aligned := Carries.deep inferInstance
  have entry : Deep s (.within false) .reads
        (located do return LetEntry.declaration (← located (declaration p)))
        (located do return LetEntry.declaration (← located (declaration q))) :=
    Carries.deep inferInstance
  have comments (entry : Located (LetEntry Expression)) :
      Deep s (.within true) .stays (do return entry :: (← letComments))
        (do return entry :: (← letComments)) := Carries.deep inferInstance
  exact .bind checked fun _ => .bind entry comments

/-- Inside a `let` stand one block of declarations or more. -/
theorem letBlocks_deep : Deep s (.within false) .reads (withReference do
      let first ← letBlock p
      return first :: (← many (letBlock p))) (withReference do
      let first ← letBlock q
      return first :: (← many (letBlock q))) := by
  have made (first : List (Located (LetEntry Expression)))
      (rest : List (List (Located (LetEntry Expression)))) : Deep s (.within false) .stays
        (pure (first :: rest)) (pure (first :: rest)) := (pure_carries _).forget.deep
  exact .withReference (.bind (letBlock_deep p q) fun first =>
      .bind (.many (letBlock_deep p q)) (made first))

instance letExpression_carries :
    Carries s before (.within false) .reads (letExpression p) (letExpression q) := by
  have body (leading : List (Located (LetEntry Expression))) (blocks : List
      (List (Located (LetEntry Expression)))) : Carries s true (.within false) .reads (do
        let bodyComments ← whitespace
        return ExpressionNode.letIn (leading ++ blocks.flatten) bodyComments (← p)) (do
        let bodyComments ← whitespace
        return ExpressionNode.letIn (leading ++ blocks.flatten) bodyComments (← q)) := inferInstance
  have node : Carries s before (.within false) .reads (do
      let _ ← attempt (keyword "let")
      let leading ← letComments
      let blocks ← withReference do
        let first ← letBlock p
        return first :: (← many (letBlock p))
      let _ ← keyword "in"
      let bodyComments ← whitespace
      return ExpressionNode.letIn (leading ++ blocks.flatten) bodyComments (← p)) (do
      let _ ← attempt (keyword "let")
      let leading ← letComments
      let blocks ← withReference do
        let first ← letBlock q
        return first :: (← many (letBlock q))
      let _ ← keyword "in"
      let bodyComments ← whitespace
      return ExpressionNode.letIn (leading ++ blocks.flatten) bodyComments (← q)) := by
    constructor
    intro start ready _
    have level := ready.depth
    rw [bind_apply, bind_apply]
    unfold attempt
    rcases letWord_meets "let" 1 ready (fun _ => nesting_of_let) (by decide) (by omega) with
      ⟨token, inside, run, run', opened, ahead, depth⟩ | ⟨_, _, run, run'⟩
    · rw [run, run']
      have deep : 0 < s.short.depth (past token start).index := by
        show 0 < s.short.depth (start.index + 1)
        omega
      -- What fails inside the `let` fails behind something that was read.
      have behind {base l r : Cursor} {manner : Manner} (fails : s.Fails manner base l r)
          (firm : manner ≠ .skips) : s.Fails .reads start l r := fails.imp id fun ⟨parted, _⟩ =>
        ⟨parted, fun _ => inside⟩
      refine (letComments_carries.meets opened fun _ => ahead).bind
        (fun leading first leads _ _ => ?_) nofun fun _ _ fails =>
        behind fails nofun
      have deepFirst : 0 < s.short.depth first.index := by
        rw [leads.depth]
        exact deep
      refine ((letBlocks_deep p q).meets leads.ready deepFirst).bind
        (fun blocks second leads' _ _ => ?_) nofun fun _ _ fails =>
        behind fails nofun
      have depthSecond : s.short.depth second.index = s.short.depth start.index + 1 := by
        rw [leads'.depth, leads.depth]
        exact depth
      rw [bind_apply, bind_apply]
      rcases letWord_meets "in" (-1) leads'.ready (fun _ => nesting_of_in) (by decide)
        (by omega) with
        ⟨token', _, run, run', closed, ahead', depth'⟩ | ⟨_, _, run, run'⟩
      · rw [run, run']
        have toFirst : start.index + 1 ≤ first.index := leads.index
        have toSecond : first.index ≤ second.index := leads'.index
        have moves : start.index < second.index + 1 := by omega
        have further : s.Leads start (past token' second) := by
          refine ⟨closed, leads'.indentation.trans leads.indentation, Nat.le_of_lt moves, ?_⟩
          show s.short.depth (second.index + 1) = _
          omega
        exact .after further (fun _ : Manner.reads = .reads => moves)
          ((body leading blocks).meets closed fun _ => ahead')
      · rw [run, run']
        exact .rejected (.inl rfl)
    · rw [run, run']
      exact .rejected (.inl rfl)
  unfold letExpression
  infer_instance

/-! ## All expressions -/

instance openEnded_allCarry : AllCarry s before (openEnded p) (openEnded q) := by
  unfold openEnded
  infer_instance

instance expressionOver_carries (t t' : Parser Expression)
    [∀ before, Carries s before (.within false) .reads t t'] [Barren t] [Stops false false t'] :
    Carries s before (.within false) .reads (expressionOver p t) (expressionOver q t') := by
  unfold expressionOver; infer_instance

end OpenEnded

instance within_term_barren (levels : Nat) : Barren (Nested.within levels).term := by
  cases levels with
  | zero => exact interrupt_barren .exhausted
  | succ levels =>
    exact stops_barren (termOver (Nested.within levels).expression (Nested.within levels).term)

instance term_stops : Stops false false term :=
  ⟨fun found place => (termOver_stops _ _).stays found place⟩

/-- Expressions and their terms carry over at every level. -/
theorem within_carries (levels : Nat) :
    (∀ before, Carries s before (.within false) .reads
      (Nested.within levels).expression expression) ∧
    ∀ before, Carries s before (.within false) .reads (Nested.within levels).term term := by
  induction levels with
  | zero => exact ⟨fun _ => ⟨fun _ _ => .cut⟩, fun _ => ⟨fun _ _ => .cut⟩⟩
  | succ levels ih =>
    obtain ⟨expressions, terms⟩ := ih
    have outerTerm (before : Bool) :
        Carries s before (.within false) .reads (Nested.within (levels + 1)).term term := by
      have rule :
          Carries s before (.within false) .reads (termOver (Nested.within levels).expression
            (Nested.within levels).term) (termOver expression term) := inferInstance
      exact rule.rewrite fun place => term_eq s.scannedLong place
    refine ⟨fun before => ?_, outerTerm⟩
    have rule :
        Carries s before (.within false) .reads (expressionOver (Nested.within levels).expression
          (Nested.within (levels + 1)).term) (expressionOver expression term) :=
      inferInstance
    exact rule.rewrite fun place => expression_eq s.scannedLong place

instance expression_carries : Carries s before (.within false) .reads expression expression :=
  ⟨fun ready ahead => ((within_carries s.short.nestingLimit).1 before).meets ready ahead⟩

end Marginalia.Grammar
