import Marginalia.Grammar.Word
import Marginalia.Proofs.Spelling.Sequence

/-!
# Reading names, literals and operands

What the smallest rules of the grammar read: names and operators, literals, arguments, and operands
joined by a connective.
-/

namespace Marginalia.Grammar

open Marginalia.Parser Word

variable {α : Type} {input : Input}

/-! ## Names -/

/-- A lower-case name reads as itself. -/
theorem lowerName_reads (scanned : input.Scanned) :
    Reads input lowerName (fun _ => []) fun name => [lower name] :=
  .bind (token_reads scanned (by decide) _) fun _ => .pure (by simp) (by simp [lower])

/-- An upper-case name reads as itself. -/
theorem upperName_reads (scanned : input.Scanned) :
    Reads input upperName (fun _ => []) fun name => [upper name] :=
  .bind (token_reads scanned (by decide) _) fun _ => .pure (by simp) (by simp [upper])

/-- Further parts of a name read as dots and upper-case names. -/
theorem dottedUpperNames_reads (scanned : input.Scanned) :
    Reads input dottedUpperNames (fun _ => []) fun names => names.flatMap fun name =>
      [mark .dot, upper name] := by
  have part :
      Reads input (do let _ ← dot; upperName) (fun _ => []) fun name => [mark .dot, upper name] :=
    .bind (mark_reads scanned (by decide) _) fun _ =>
      .last (upperName_reads scanned) (by simp) (by simp)
  exact .last part.attempt.many (by simp) (by simp)

/-- A name after a dot reads as the dot and the name. -/
theorem dottedLowerName_reads (scanned : input.Scanned) :
    Reads input dottedLowerName (fun _ => []) fun name => [mark .dot, lower name] := by
  have part :
      Reads input (do let _ ← dot; lowerName) (fun _ => []) fun name => [mark .dot, lower name] :=
    .bind (mark_reads scanned (by decide) _) fun _ =>
      .last (lowerName_reads scanned) (by simp) (by simp)
  exact part.attempt

/-- Dots behind the parts of a name are dots before them, but for the first and the last one. -/
theorem dots_shift (parts : List Text) (last : List Word) :
    mark .dot :: (parts.flatMap (fun part => [upper part, mark .dot]) ++ last) =
      parts.flatMap (fun part => [mark .dot, upper part]) ++ mark .dot :: last := by
  induction parts with
  | nil => rfl
  | cons part rest ih => simp [ih]

/-- The words of a name made of parts: the first one, and a dot before each further one. -/
theorem words_ofParts (first : Text) (rest : List Text) :
    (QualifiedName.ofParts first rest).words upper =
      upper first :: rest.flatMap fun part => [mark .dot, upper part] := by
  induction rest generalizing first with
  | nil => rfl
  | cons next rest ih =>
    have inner := ih next
    rw [QualifiedName.words] at inner ⊢
    rw [QualifiedName.ofParts, List.flatMap_cons, List.append_assoc, inner]
    rfl

/-- A qualified name of a constructor reads as its parts and the dots between them. -/
theorem qualifiedUpperName_reads (scanned : input.Scanned) :
    Reads input qualifiedUpperName (fun _ => []) (·.words upper) :=
  .bind (upperName_reads scanned) fun first => .bind (dottedUpperNames_reads scanned) fun rest =>
    .pure (by simp) (by simp [words_ofParts])

/-- A name reads as its words. -/
theorem nameReference_reads (scanned : input.Scanned) :
    Reads input nameReference (fun _ => []) Reference.words := by
  refine .bind (peekThat_reads _) fun isLower => ?_
  split
  · exact .bind (lowerName_reads scanned) fun name =>
      .pure (by simp) (by simp [Reference.words, QualifiedName.words])
  · refine .bind (peekThat_reads _) fun isUpper => ?_
    split
    · refine .bind (upperName_reads scanned) fun first => .bind (dottedUpperNames_reads scanned)
        fun rest => ?_
      refine .bind (dottedLowerName_reads scanned).optional fun last => ?_
      cases last with
      | some name =>
        exact .pure (by simp) (by simp [Reference.words, QualifiedName.words, dots_shift])
      | none => exact .pure (by simp) (by simp [Reference.words, words_ofParts])
    · exact .fail _

/-- The symbol of an operator reads as the operator. -/
theorem operatorSymbol_reads (scanned : input.Scanned) :
    Reads input operatorSymbol (fun _ => []) fun symbol => [Word.operator symbol] :=
  .bind (token_reads scanned (by decide) _) fun _ => .pure (by simp) (by simp [Word.operator])

/-- An operator between operands reads as the operator. -/
theorem infixOperator_reads (scanned : input.Scanned) :
    Reads input infixOperator (fun _ => []) Reference.infixWords :=
  .bind (operatorSymbol_reads scanned) fun _ => .pure (by simp) (by simp [Reference.infixWords])

/-- An operator in parentheses reads as the operator between them. -/
theorem parenthesizedOperator_reads (scanned : input.Scanned) :
    Reads input parenthesizedOperator (fun _ => []) fun symbol => inParens [Word.operator symbol] :=
  .bind (mark_reads scanned (by decide) _) fun _ => .bind (operatorSymbol_reads scanned) fun _ =>
    .bind (mark_reads scanned (by decide) _) fun _ => .pure (by simp) (by simp [inParens, enclosed])

/-! ## Literals -/

/-- Cutting off both ends of a text leaves what is between them. -/
theorem trimEnds_append (opening body closing : Text) :
    Text.trimEnds (opening ++ (body ++ closing)) opening.length closing.length = body := by
  have length :
      (opening ++ (body ++ closing)).length - opening.length - closing.length = body.length := by
    simp only [List.length_append]
    omega
  rw [Text.trimEnds, length, List.drop_left, List.take_left]

/-- The literal of a string token spells the token. -/
theorem words_ofString {lexeme : Text} (shape : Scan.Shape .string lexeme) :
    (Literal.ofString lexeme).words = [exact .string lexeme] := by
  rcases shape with ⟨body, rfl⟩ | ⟨notTriple, body, rfl⟩
  · have opens : (Text.ofString "\"\"\"").isPrefixOf
        (Text.ofString Scan.tripleQuote ++ (body ++ Text.ofString Scan.tripleQuote)) = true :=
      Scan.opensWith_append Scan.tripleQuote _
    have inside := trimEnds_append (Text.ofString Scan.tripleQuote) body
      (Text.ofString Scan.tripleQuote)
    rw [Literal.ofString, if_pos opens]
    rw [show (Text.ofString Scan.tripleQuote).length = 3 from rfl] at inside
    rw [inside, Literal.words]
  · have opens : ¬ (Text.ofString "\"\"\"").isPrefixOf
        (Text.ofString "\"" ++ (body ++ Text.ofString "\"")) = true := by
      have other : (Text.ofString "\"\"\"").isPrefixOf
            (Text.ofString "\"" ++ (body ++ Text.ofString "\"")) = false :=
        notTriple
      simp [other]
    have inside := trimEnds_append (Text.ofString "\"") body (Text.ofString "\"")
    rw [Literal.ofString, if_neg opens]
    rw [show (Text.ofString "\"").length = 1 from rfl] at inside
    rw [inside, Literal.words]

/-- The literal of a character token spells the token. -/
theorem words_ofCharacter {lexeme : Text} (shape : Scan.Shape .char lexeme) :
    (Literal.ofCharacter lexeme).words = [exact .char lexeme] := by
  obtain ⟨body, rfl⟩ := shape
  have inside := trimEnds_append (Text.ofString "'") body (Text.ofString "'")
  rw [show (Text.ofString "'").length = 1 from rfl] at inside
  rw [Literal.ofCharacter, inside, Literal.words]

/-- The literal of a number token leaves the spelling open. -/
theorem words_ofNumber {lexeme : Text} {literal : Literal}
    (number : Literal.ofNumber? lexeme = some literal) : literal.words = [Word.number literal] := by
  rw [Literal.ofNumber?] at number
  split at number
  · obtain ⟨value, -, rfl⟩ := Option.map_eq_some_iff.mp number
    rfl
  · split at number
    · obtain rfl := Option.some.inj number
      rfl
    · split at number
      · obtain rfl := Option.some.inj number
        rfl
      · obtain ⟨value, -, rfl⟩ := Option.map_eq_some_iff.mp number
        rfl

/-- The words of the literal that a token stands for; a token that is none stands for itself. -/
def literalWords (token : Token) : List Word :=
  match token.kind with
  | .string => (Literal.ofString token.lexeme).words
  | .char => (Literal.ofCharacter token.lexeme).words
  | kind => (Literal.ofNumber? token.lexeme).elim [exact kind token.lexeme] Literal.words

/-- A literal reads as itself. -/
theorem literal_reads (scanned : input.Scanned) :
    Reads input literal (fun _ => []) Literal.words := by
  have token : Reads input (satisfy (fun token => token.kind == .number || token.kind == .string ||
        token.kind == .char) "a literal") (fun _ => []) literalWords := by
    refine satisfy_reads scanned (fun token shape isLiteral => ?_) _
    simp only [Bool.or_eq_true, beq_iff_eq] at isLiteral
    rw [literalWords]
    rcases isLiteral with (number | string) | char
    · simp only [number]
      refine ⟨by decide, ?_⟩
      cases found : Literal.ofNumber? token.lexeme with
      | none => exact .single ⟨token, rfl, number, rfl⟩
      | some literal =>
        rw [Option.elim_some, words_ofNumber found]
        exact .single ⟨token, rfl, number, found⟩
    · simp only [string] at shape ⊢
      rw [words_ofString shape]
      exact ⟨by decide, .single ⟨token, rfl, string, rfl⟩⟩
    · simp only [char] at shape ⊢
      rw [words_ofCharacter shape]
      exact ⟨by decide, .single ⟨token, rfl, char, rfl⟩⟩
  refine .bind token fun found => ?_
  by_cases string : found.kind = .string
  · simp only [literalWords, string]
    exact .pure rfl rfl
  · by_cases char : found.kind = .char
    · simp only [literalWords, char]
      exact .pure rfl rfl
    · cases number : Literal.ofNumber? found.lexeme with
      | some literal =>
        simp only [literalWords, number]
        exact .pure (by simp) (by simp)
      | none =>
        simp only [literalWords, number]
        intro start value stop run
        cases run

/-! ## Arguments -/

/-- An argument reads as the comments before it and itself. -/
theorem Reads.spacedItem {item : Parser α} {allComments : α → Comments} {allWords : α → List Word}
    (reads : Reads input item allComments allWords) :
    Reads input (spacedItem item) (·.allComments allComments) (allWords ·.value) := by
  refine Reads.attempt (.bind whitespace_reads fun comments => .bind indented_reads fun _ =>
      .bind reads fun value => ?_)
  exact .pure (by simp [Commented.pre]) (by simp [Commented.pre])

/-- Arguments read as one after the other. -/
theorem Reads.spaced {item : Parser α} {allComments : α → Comments} {allWords : α → List Word}
    (reads : Reads input item allComments allWords) :
    Reads input (spaced item) (·.flatMap (·.allComments allComments))
      (·.flatMap (allWords ·.value)) :=
  (Reads.spacedItem reads).many

/-- An argument that is no operand of a minus sign reads as the comments before it and itself. -/
theorem Reads.spacedArgument {item : Parser α} {allComments : α → Comments}
    {allWords : α → List Word} (reads : Reads input item allComments allWords) :
    Reads input (spacedArgument item) (·.allComments allComments) (allWords ·.value) := by
  refine Reads.attempt (.bind position_reads fun start => .bind whitespace_reads fun comments =>
    .bind position_reads fun position => .bind (peekThat_reads _) fun isOperator =>
      .bind peek_reads fun next => ?_)
  split
  · exact .fail _
  · refine .bind indented_reads fun _ => .bind reads fun value => ?_
    exact .pure (by simp [Commented.pre]) (by simp [Commented.pre])

/-! ## Operands joined by a connective -/

/-- The comments of a further operand and its connective. -/
def Link.allComments (inner : α → Comments) (link : Link α) : Comments :=
  link.before ++ (link.after ++ inner link.operand)

/-- Putting the comments around connectives to the operands changes no comments. -/
theorem operands_comments (inner : α → Comments) (before : Comments) (current : α)
    (links : List (Link α)) :
    (Link.operands before current links).1.allComments inner ++
      (Link.operands before current links).2.flatMap (·.allComments inner) = before ++
      (inner current ++ links.flatMap (·.allComments inner)) := by
  induction links generalizing before current with
  | nil => simp [Link.operands, Commented.pre]
  | cons link rest ih =>
    have further := ih link.after link.operand
    rw [Link.operands]
    simp only [List.flatMap_cons, Link.allComments, Commented.allComments,
      List.append_assoc] at further ⊢
    rw [further]

/-- Putting the comments around connectives to the operands changes no words. -/
theorem operands_words (separator : Word) (inner : α → List Word) (before : Comments) (current : α)
    (links : List (Link α)) :
    inner (Link.operands before current links).1.value ++ (Link.operands before current
      links).2.flatMap (fun operand => separator :: inner operand.value) = inner current ++
      links.flatMap fun link => separator :: inner link.operand := by
  induction links generalizing before current with
  | nil => simp [Link.operands, Commented.pre]
  | cons link rest ih =>
    have further := ih link.after link.operand
    rw [Link.operands]
    simp only [List.flatMap_cons, List.cons_append]
    rw [further]

section Joined

variable {connective : Parser Token} {operand : Parser α} {separator : Word}
  {allComments : α → Comments} {allWords : α → List Word}

/-- A further operand reads as its connective and itself. -/
theorem Reads.link (connects : Reads input connective (fun _ => []) fun _ => [separator])
    (reads : Reads input operand allComments allWords) :
    Reads input (link connective operand) (·.allComments allComments) fun link =>
      separator :: allWords link.operand := by
  refine Reads.attempt (.bind whitespace_reads fun before => .bind connects fun _ =>
    .bind whitespace_reads fun after => .bind reads fun value => ?_)
  exact .pure (by simp [Link.allComments]) (by simp)

/-- Operands read with connectives between them. -/
theorem Reads.joined (connects : Reads input connective (fun _ => []) fun _ => [separator])
    (reads : Reads input operand allComments allWords) :
    Reads input (joined connective operand) (fun operands => operands.1.allComments allComments ++
      operands.2.flatMap (·.allComments allComments)) fun operands =>
      between separator (allWords operands.1.value :: operands.2.map (allWords ·.value)) := by
  refine .bind reads fun first => .bind (Reads.link connects reads).many fun links => .pure ?_ ?_
  · simpa using operands_comments allComments [] first links
  · simpa [between_cons, List.flatMap_map] using operands_words separator allWords [] first links

/-- A single operand has no comments around it. -/
theorem joined_single {first : Commented α}
    (given : Gives input (joined connective operand) (first, [])) :
    first.before = [] ∧ first.after = [] := by
  obtain ⟨start, stop, run⟩ := given
  simp only [Grammar.joined, bind_done] at run
  obtain ⟨value, _, -, links, _, -, result⟩ := run
  have same := (Outcome.done.inj result).1
  cases links with
  | nil =>
    obtain ⟨rfl, -⟩ := Prod.mk.inj same
    exact ⟨rfl, rfl⟩
  | cons link rest => cases (Prod.mk.inj same).2

end Joined

end Marginalia.Grammar
