import Marginalia.Grammar.Pattern
import Marginalia.Grammar.TypeExpression
import Marginalia.Proofs.Spelling.Name

/-!
# Reading patterns and types

Every rule of the grammars of patterns and of types reads what the tree that it makes says, if the
rules inside it do; and by induction over the levels every level does.
-/

namespace Marginalia.Grammar

open Marginalia.Parser Word

variable {input : Input}

/-! ## Patterns -/

/-- What a located node reads is what the pattern says. -/
theorem patternOf_reads {node : Parser (PatternNode Pattern)}
    (reads : Reads input node (·.allComments Pattern.allComments) (·.words Pattern.words)) :
    Reads input (patternOf node) Pattern.allComments Pattern.words :=
  .bind reads.located fun _ => .pure (by simp) (by simp)

/-- A braced list of field names reads as such a pattern. -/
theorem recordPattern_reads (scanned : input.Scanned) :
    Reads input recordPattern (·.allComments Pattern.allComments) (·.words Pattern.words) := by
  refine .bindGiven ((lowerName_reads scanned).group scanned (by decide) (by decide) _)
    fun ⟨contents, _⟩ given => ?_
  have trailing := group_trailing given
  match contents with
  | ⟨[], _⟩ => exact .fail _
  | ⟨first :: rest, comments⟩ =>
    obtain rfl : comments = [] := by simpa using trailing
    exact .pure (by simp [PatternNode.allComments]) (by simp [PatternNode.words, inBraces])

section Over

variable {pattern : Parser Pattern} (scanned : input.Scanned)
  (reads : Reads input pattern Pattern.allComments Pattern.words)

include scanned reads

/-- Patterns in parentheses read as such a pattern. -/
theorem tuplePattern_reads :
    Reads input (tuplePattern pattern) (·.allComments Pattern.allComments)
      (·.words Pattern.words) := by
  refine .bindGiven (reads.group scanned (by decide) (by decide) _) fun ⟨contents, _⟩ given => ?_
  have trailing := group_trailing given
  match contents with
  | ⟨[], _⟩ =>
    exact .pure (by simp [PatternNode.allComments])
      (by simp [PatternNode.words, inParens, listed, between])
  | ⟨[only], comments⟩ =>
    obtain rfl : comments = [] := by simpa using trailing
    exact .pure (by simp [PatternNode.allComments])
      (by simp [PatternNode.words, inParens, listed, between])
  | ⟨first :: second :: rest, comments⟩ =>
    obtain rfl : comments = [] := by simpa using trailing
    exact .pure (by simp [PatternNode.allComments]) (by simp [PatternNode.words, inParens])

/-- Patterns in square brackets read as such a pattern. -/
theorem listPattern_reads :
    Reads input (listPattern pattern) (·.allComments Pattern.allComments)
      (·.words Pattern.words) := by
  refine .bindGiven (reads.group scanned (by decide) (by decide) _) fun ⟨contents, _⟩ given => ?_
  have trailing := group_trailing given
  match contents with
  | ⟨[], _⟩ =>
    exact .pure (by simp [PatternNode.allComments])
      (by simp [PatternNode.words, inBrackets, listed, between])
  | ⟨first :: rest, comments⟩ =>
    obtain rfl : comments = [] := by simpa using trailing
    exact .pure (by simp [PatternNode.allComments]) (by simp [PatternNode.words, inBrackets])

end Over

/-- A token that is read right after it was seen to have a spelling has that spelling. -/
theorem seen_reads (scanned : input.Scanned) {kind : TokenKind} (notEnd : kind ≠ .eof)
    (word label : String) {start middle stop : Cursor} {found : Token}
    (seen : peekSpelled kind word input start = .done true middle)
    (run : token kind label input middle = .done found stop) :
    Passed input start stop [] [exact kind word] := by
  obtain ⟨rfl, next, looked, holds⟩ := peekThat_done seen
  obtain ⟨same, -, -⟩ := satisfy_done run
  obtain rfl : found = next := Option.some.inj (same.symm.trans looked)
  have passed := reads_iff.mp (token_reads scanned notEnd label) middle found stop run
  simp only [Bool.true_eq, Bool.and_eq_true, beq_iff_eq] at holds
  rwa [holds.2.2] at passed

/-- A pattern of one word reads as that word. -/
theorem wordPattern_reads (scanned : input.Scanned) :
    Reads input wordPattern (·.allComments Pattern.allComments) (·.words Pattern.words) := by
  refine reads_iff.mpr fun start node stop run => ?_
  obtain ⟨isWild, middle, seen, further⟩ := bind_done.mp run
  cases isWild with
  | true =>
    obtain ⟨_, _, read, result⟩ := bind_done.mp further
    obtain ⟨rfl, rfl⟩ := Outcome.done.inj result
    exact seen_reads scanned (by decide) "_" _ seen read
  | false =>
    obtain ⟨rfl, -⟩ := peekThat_done seen
    rw [if_neg (by decide)] at further
    refine reads_iff.mp ?_ middle node stop further
    refine .bind (peekThat_reads _) fun isLower => ?_
    split
    · refine .bind (lowerName_reads scanned) fun name => ?_
      exact .pure (by simp [PatternNode.allComments]) (by simp [PatternNode.words])
    · refine .bind (peekThat_reads _) fun isUpper => ?_
      split
      · refine .bind (qualifiedUpperName_reads scanned) fun tag => ?_
        exact .pure (by simp [PatternNode.allComments]) (by simp [PatternNode.words])
      · refine .bind (literal_reads scanned) fun literal => ?_
        exact .pure (by simp [PatternNode.allComments]) (by simp [PatternNode.words])

section Term

variable {term : Parser Pattern} (scanned : input.Scanned)
  (reads : Reads input term Pattern.allComments Pattern.words)

include scanned reads

/-- A term over the patterns inside it reads as such a pattern. -/
theorem patternTermOver_reads :
    Reads input (patternTermOver term) Pattern.allComments Pattern.words := by
  refine Reads.expecting (patternOf_reads (.choiceAfter ?_)) _
  simp only [List.forall_mem_cons, List.not_mem_nil, false_imp_iff, implies_true, and_true]
  exact ⟨recordPattern_reads scanned, tuplePattern_reads scanned reads,
    listPattern_reads scanned reads, wordPattern_reads scanned⟩

/-- A constructor with arguments, or a term, reads as such a pattern. -/
theorem patternOperand_reads :
    Reads input (patternOperand term) Pattern.allComments Pattern.words := by
  refine .bind (peekThat_reads _) fun isUpper => ?_
  split
  · refine patternOf_reads (.bind (qualifiedUpperName_reads scanned) fun tag =>
      .bind (Reads.spaced reads) fun arguments => ?_)
    exact .pure (by simp [PatternNode.allComments]) (by simp [PatternNode.words])
  · exact reads

/-- Operands joined by the operator read as such a pattern. -/
theorem consPattern_reads : Reads input (consPattern term) Pattern.allComments Pattern.words := by
  refine .bind position_reads fun start => ?_
  refine .bindGiven (Reads.joined (operator_reads scanned "::")
      (patternOperand_reads scanned reads)) fun ⟨first, rest⟩ given => ?_
  cases rest with
  | nil =>
    obtain ⟨before, after⟩ := joined_single given
    exact .pure (by simp [before, after]) (by simp [between])
  | cons second others =>
    refine .bind position_reads fun stop => ?_
    exact .pure (by simp [PatternNode.allComments]) (by simp [PatternNode.words])

/-- A full pattern over its terms reads as such a pattern. -/
theorem patternOver_reads : Reads input (patternOver term) Pattern.allComments Pattern.words := by
  have word : Reads input aliasKeyword id fun _ => [keyword "as"] :=
    Reads.attempt (.bind whitespace_reads fun comments =>
        .bind (keyword_reads scanned "as") fun _ =>
      .pure (by simp) (by simp))
  refine Reads.expecting (.bind position_reads fun start => .bind (consPattern_reads scanned reads)
      fun pattern =>
    .bind word.optional fun found => ?_) _
  cases found with
  | none => exact .pure (by simp) (by simp)
  | some before =>
    refine .bind whitespace_reads fun after => .bind (lowerName_reads scanned) fun name =>
      .bind position_reads fun stop => ?_
    refine .pure ?_ ?_
    · simp [PatternNode.allComments, Commented.pre, Commented.post]
    · simp [PatternNode.words, Commented.pre, Commented.post]

end Term

/-- At every level a term reads as such a pattern. -/
theorem patternTermWithin_reads (scanned : input.Scanned) (levels : Nat) :
    Reads input (patternTermWithin levels) Pattern.allComments Pattern.words := by
  induction levels with
  | zero =>
    intro start value stop run
    cases run
  | succ levels ih => exact patternTermOver_reads scanned (patternOver_reads scanned ih)

/-- A term reads as such a pattern. -/
theorem patternTerm_reads (scanned : input.Scanned) :
    Reads input patternTerm Pattern.allComments Pattern.words :=
  fun start value stop run =>
    patternTermWithin_reads scanned input.nestingLimit start value stop run

/-- A pattern reads as what its tree says. -/
theorem pattern_reads (scanned : input.Scanned) :
    Reads input pattern Pattern.allComments Pattern.words :=
  patternOver_reads scanned (patternTerm_reads scanned)

/-! ## Types -/

/-- What a located node reads is what the type says. -/
theorem typeOf_reads {node : Parser (TypeNode TypeExpression)} (reads : Reads input node
      (·.allComments TypeExpression.allComments) (·.words TypeExpression.words)) :
    Reads input (typeOf node) TypeExpression.allComments TypeExpression.words :=
  .bind reads.located fun _ => .pure (by simp) (by simp)

/-- The name of a record and the bar after it read as these. -/
theorem recordBase_reads (scanned : input.Scanned) :
    Reads input recordBase (·.allComments uncommented) fun name =>
      [lower name.value, mark .pipe] := by
  refine Reads.attempt (.bind (lowerName_reads scanned).padded fun name =>
    .bind (mark_reads scanned (by decide) _) fun _ => ?_)
  exact .pure (by simp) (by simp)

/-- Fields in braces, perhaps after the name of a record, read as these. -/
theorem braced_reads {α : Type} {field : Parser α} {allComments : α → Comments}
    {allWords : α → List Word} (scanned : input.Scanned)
    (reads : Reads input field allComments allWords) : Reads input (do
      let _ ← token .leftBrace "'\x7b'"
      let base ← optional recordBase
      return (base, ← separated .rightBrace field "'\x7d'"))
      (fun found => found.1.elim [] (·.allComments uncommented) ++ found.2.allComments allComments)
      fun found => inBraces (baseWords found.1 ++
          listed (found.2.items.map (allWords ·.value))) := by
  refine .bind (mark_reads scanned (by decide) _) fun _ =>
    .bind (recordBase_reads scanned).optional fun base =>
    .bind (reads.separated scanned (by decide) _) fun fields => ?_
  exact .pure (by simp) (by simp [inBraces, enclosed, baseWords])

section Over

variable {type : Parser TypeExpression} (scanned : input.Scanned)
  (reads : Reads input type TypeExpression.allComments TypeExpression.words)

include scanned reads

/-- Types in parentheses read as such a type. -/
theorem tupleType_reads :
    Reads input (tupleType type) (·.allComments TypeExpression.allComments)
      (·.words TypeExpression.words) := by
  refine .bindGiven (reads.group scanned (by decide) (by decide) _) fun ⟨contents, _⟩ given => ?_
  have trailing := group_trailing given
  match contents with
  | ⟨[], _⟩ =>
    exact .pure (by simp [TypeNode.allComments])
      (by simp [TypeNode.words, inParens, listed, between])
  | ⟨[only], comments⟩ =>
    obtain rfl : comments = [] := by simpa using trailing
    exact .pure (by simp [TypeNode.allComments])
      (by simp [TypeNode.words, inParens, listed, between])
  | ⟨first :: second :: rest, comments⟩ =>
    obtain rfl : comments = [] := by simpa using trailing
    exact .pure (by simp [TypeNode.allComments]) (by simp [TypeNode.words, inParens])

/-- A field reads as its name, the colon and its type. -/
theorem recordTypeField_reads :
    Reads input (recordTypeField type) (·.allComments TypeExpression.allComments)
      (·.words TypeExpression.words) := by
  refine .bind (lowerName_reads scanned) fun name => .bind whitespace_reads fun before =>
    .bind (mark_reads scanned (by decide) _) fun _ => .bind whitespace_reads fun after =>
      .bind reads fun found => ?_
  refine .pure ?_ ?_
  · simp [Commented.pre, Commented.post]
  · simp [RecordTypeField.words, Commented.pre, Commented.post]

/-- A record type reads as such a type. -/
theorem recordType_reads :
    Reads input (recordType type) (·.allComments TypeExpression.allComments)
      (·.words TypeExpression.words) := by
  refine .bind (braced_reads scanned (recordTypeField_reads scanned reads)).trackNewline
    fun ⟨⟨base, fields⟩, multiline⟩ => ?_
  exact .pure (by simp [TypeNode.allComments]) (by simp [TypeNode.words])

/-- A term over the types inside it reads as such a type. -/
theorem typeTermOver_reads :
    Reads input (typeTermOver type) TypeExpression.allComments TypeExpression.words := by
  refine Reads.expecting (typeOf_reads (.choiceAfter ?_)) _
  simp only [List.forall_mem_cons, List.not_mem_nil, false_imp_iff, implies_true, and_true]
  refine ⟨tupleType_reads scanned reads, recordType_reads scanned reads, ?_, ?_⟩
  · refine .bind (lowerName_reads scanned) fun name => ?_
    exact .pure (by simp [TypeNode.allComments]) (by simp [TypeNode.words])
  · refine .bind (qualifiedUpperName_reads scanned) fun tag => ?_
    exact .pure (by simp [TypeNode.allComments]) (by simp [TypeNode.words])

/-- A constructor with arguments, or a term, reads as such a type. -/
theorem typeOperand_reads :
    Reads input (typeOperand type) TypeExpression.allComments TypeExpression.words := by
  refine .bind (peekThat_reads _) fun isUpper => ?_
  split
  · refine typeOf_reads (.bind (qualifiedUpperName_reads scanned) fun tag =>
      .bind (Reads.spaced reads) fun arguments => ?_)
    exact .pure (by simp [TypeNode.allComments]) (by simp [TypeNode.words])
  · exact reads

/-- A full type over its terms reads as such a type. -/
theorem typeOver_reads :
    Reads input (typeOver type) TypeExpression.allComments TypeExpression.words := by
  refine Reads.expecting (.bind position_reads fun start => ?_) _
  refine .bindGiven (Reads.joined (mark_reads scanned (by decide) "'->'")
    (typeOperand_reads scanned reads)).trackNewline fun ⟨⟨first, rest⟩, multiline⟩ given => ?_
  cases rest with
  | nil =>
    obtain ⟨begin, stop, run⟩ := given
    obtain ⟨before, after⟩ := joined_single ⟨begin, stop, (trackNewline_done run).1⟩
    exact .pure (by simp [before, after]) (by simp [between])
  | cons second others =>
    refine .bind position_reads fun stop => ?_
    exact .pure (by simp [TypeNode.allComments]) (by simp [TypeNode.words])

end Over

/-- At every level a term reads as such a type. -/
theorem typeTermWithin_reads (scanned : input.Scanned) (levels : Nat) :
    Reads input (typeTermWithin levels) TypeExpression.allComments TypeExpression.words := by
  induction levels with
  | zero =>
    intro start value stop run
    cases run
  | succ levels ih => exact typeTermOver_reads scanned (typeOver_reads scanned ih)

/-- A term reads as such a type. -/
theorem typeTerm_reads (scanned : input.Scanned) :
    Reads input typeTerm TypeExpression.allComments TypeExpression.words :=
  fun start value stop run => typeTermWithin_reads scanned input.nestingLimit start value stop run

/-- A type reads as what its tree says. -/
theorem typeExpression_reads (scanned : input.Scanned) :
    Reads input typeExpression TypeExpression.allComments TypeExpression.words :=
  typeOver_reads scanned (typeTerm_reads scanned)

end Marginalia.Grammar
