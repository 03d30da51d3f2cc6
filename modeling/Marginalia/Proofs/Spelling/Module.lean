import Marginalia.Grammar.Module
import Marginalia.Proofs.Spelling.Expression

/-!
# Reading modules

Every rule of the grammar of modules reads what the tree that it makes says.
-/

namespace Marginalia.Grammar

open Marginalia.Parser Word

variable {α : Type} {input : Input}

/-! ## Listings -/

/-- The parts of a name are spelled as the name. -/
theorem nameWords_parts (name : QualifiedName) : nameWords name.parts = name.words upper := by
  obtain ⟨qualifier, last⟩ := name
  cases qualifier with
  | nil => rfl
  | cons first rest =>
    have shifted := dots_shift rest [upper last]
    rw [nameWords, QualifiedName.parts, List.cons_append, List.map_cons, between_cons]
    simp [QualifiedName.words, List.flatMap_map, shifted]

/-- The parts of a module's name read as a dotted name. -/
theorem moduleName_reads (scanned : input.Scanned) :
    Reads input moduleName (fun _ => []) nameWords :=
  .bind (qualifiedUpperName_reads scanned) fun name => .pure (by simp) (by simp [nameWords_parts])

/-- A token that is given has the shape of its kind. -/
theorem token_shape (scanned : input.Scanned) {kind : TokenKind} {label : String} {found : Token}
    (given : Gives input (token kind label) found) : Scan.Shape kind found.lexeme := by
  obtain ⟨start, stop, run⟩ := given
  obtain ⟨looked, ⟨-, -, isKind⟩, -⟩ := satisfy_done run
  have same : found.kind = kind := by simpa using isKind
  rw [← same]
  exact scanned.shape looked

/-- A lower-case name in a listing spells itself. -/
theorem words_lower_listed {name : Text} (shape : Scan.Shape .lowerIdentifier name)
    (constructors : Option Comments) :
    ListedName.words ⟨name, constructors⟩ = lower name :: constructors.elim [] fun _ =>
      inParens [mark .range] := by
  obtain ⟨u, tail, rfl, isStart, notUpper⟩ := shape
  have notParen : u ≠ .ofChar '(' := by
    rintro rfl
    revert isStart
    decide
  simp [ListedName.words, notParen, notUpper]

/-- An upper-case name in a listing spells itself. -/
theorem words_upper_listed {name : Text} (shape : Scan.Shape .upperIdentifier name)
    (constructors : Option Comments) :
    ListedName.words ⟨name, constructors⟩ = upper name :: constructors.elim [] fun _ =>
      inParens [mark .range] := by
  obtain ⟨u, tail, rfl, isUpper⟩ := shape
  have notParen : u ≠ .ofChar '(' := by
    rintro rfl
    revert isUpper
    decide
  simp [ListedName.words, notParen, isUpper]

/-- An operator in a listing spells itself in parentheses. -/
theorem words_operator_listed (symbol : Text) :
    ListedName.words ⟨Text.ofString "(" ++ symbol ++ Text.ofString ")", none⟩ = inParens
      [Word.operator symbol] := by
  have opening : Text.ofString "(" = [.ofChar '('] := rfl
  have closing : Text.ofString ")" = [.ofChar ')'] := rfl
  rw [opening, closing, List.singleton_append, List.cons_append]
  simp [ListedName.words]

/-- A name in a listing reads as such. -/
theorem listedName_reads (scanned : input.Scanned) :
    Reads input listedName ListedName.allComments ListedName.words := by
  have constructors : Reads input allConstructors id fun _ => inParens [mark .range] := by
    refine Reads.attempt (.bind whitespace_reads fun comments =>
        .bind (mark_reads scanned (by decide) _) fun _ =>
      .bind (mark_reads scanned (by decide) _) fun _ =>
        .bind (mark_reads scanned (by decide) _) fun _ => ?_)
    exact .pure (by simp) (by simp [inParens, enclosed])
  refine .choiceAfter ?_
  simp only [List.forall_mem_cons, List.not_mem_nil, false_imp_iff, implies_true, and_true]
  refine ⟨?_, ?_, ?_⟩
  · refine .bindGiven (lowerName_reads scanned) fun name given => ?_
    obtain ⟨start, stop, run⟩ := given
    obtain ⟨found, _, read, result⟩ := bind_done.mp run
    obtain ⟨rfl, -⟩ := Outcome.done.inj result
    refine .pure (by simp) ?_
    rw [words_lower_listed (token_shape scanned ⟨start, _, read⟩)]
    simp
  · refine .bind (parenthesizedOperator_reads scanned) fun symbol => .pure (by simp) ?_
    rw [words_operator_listed]
    simp
  · refine .bindGiven (upperName_reads scanned) fun name given => ?_
    obtain ⟨start, stop, run⟩ := given
    obtain ⟨found, _, read, result⟩ := bind_done.mp run
    obtain ⟨rfl, -⟩ := Outcome.done.inj result
    refine .bind constructors.optional fun comments => .pure (by simp) ?_
    rw [words_upper_listed (token_shape scanned ⟨start, _, read⟩)]
    simp

/-- A listing in parentheses reads as such. -/
theorem listing_reads (scanned : input.Scanned) :
    Reads input listing Listing.allComments Listing.words := by
  have everything : Reads input everything id fun _ => [mark .range, mark .rightParen] := by
    refine Reads.attempt (.bind whitespace_reads fun before =>
        .bind (mark_reads scanned (by decide) _) fun _ =>
      .bind whitespace_reads fun after => .bind (mark_reads scanned (by decide) _) fun _ => ?_)
    exact .pure (by simp) (by simp)
  refine .bind (mark_reads scanned (by decide) _) fun _ => .bind everything.optional fun found => ?_
  cases found with
  | some comments =>
    exact .pure (by simp [Listing.allComments]) (by simp [Listing.words, inParens, enclosed])
  | none =>
    refine .bind ((listedName_reads scanned).separated scanned (by decide) _) fun contents => ?_
    exact .pure (by simp [Listing.allComments]) (by simp [Listing.words, inParens, enclosed])

/-! ## Header and imports -/

/-- A header reads as such. -/
theorem moduleHeader_reads (scanned : input.Scanned) :
    Reads input moduleHeader (·.value.allComments) (·.value.words) := by
  refine Reads.located (.bind (keyword_reads scanned "module") fun _ =>
      .bind whitespace_reads fun preName =>
    .bind (moduleName_reads scanned) fun name => .bind whitespace_reads fun postName =>
    .bind (keyword_reads scanned "exposing") fun _ => .bind whitespace_reads fun preListing =>
    .bind (listing_reads scanned) fun listing => ?_)
  exact .pure (by simp [Commented.pre]) (by simp [ModuleHeader.words, Commented.pre])

/-- What a word introduces reads as the word and what is introduced. -/
theorem introduced_reads (scanned : input.Scanned) (word : String) {parser : Parser α}
    {allComments : α → Comments} {allWords : α → List Word}
    (reads : Reads input parser allComments allWords) :
    Reads input (introduced word parser) (·.allComments allComments) fun found =>
      Word.keyword word :: allWords found.value := by
  refine Reads.attempt (.bind whitespace_reads fun before =>
      .bind (keyword_reads scanned word) fun _ =>
    .bind whitespace_reads fun after => .bind reads fun value => ?_)
  exact .pure (by simp [Commented.pre]) (by simp [Commented.pre])

/-- An import reads as such. -/
theorem importDeclaration_reads (scanned : input.Scanned) :
    Reads input importDeclaration (·.value.allComments) (·.value.words) := by
  refine Reads.located (.bind (keyword_reads scanned "import") fun _ =>
      .bind whitespace_reads fun preName =>
    .bind (moduleName_reads scanned) fun name =>
    .bind (introduced_reads scanned "as" (upperName_reads scanned)).optional fun qualifier =>
    .bind (introduced_reads scanned "exposing" (listing_reads scanned)).optional fun exposes => ?_)
  refine .pure ?_ ?_
  · cases qualifier <;> cases exposes <;> simp [Commented.pre]
  · cases qualifier <;> cases exposes <;> simp [Import.words, Commented.pre]

/-- Imports read as one after the other, with the comments before each and after the last. -/
theorem importsUpTo_reads (scanned : input.Scanned) (bound : Nat) (pending : Located Comments) :
    Extends input pending.value [] (importsUpTo bound pending)
      (fun found => found.1.flatMap (·.allComments (Import.allComments ·.value)) ++ found.2.value)
      fun found => found.1.flatMap (·.value.value.words) := by
  induction bound generalizing pending with
  | zero =>
    intro start value stop run
    cases run
  | succ bound ih =>
    refine .bind (peekThat_reads _) fun isImport => ?_
    split
    · refine .bind (importDeclaration_reads scanned) fun declaration =>
        .bind whitespace_reads.located fun next => ?_
      refine .bindAfter (pending.value ++ declaration.value.allComments) (ih next) (by simp)
        fun ⟨rest, last⟩ _ => ?_
      exact .pure (by simp [Commented.pre]) (by simp [Commented.pre])
    · exact .pure (by simp) (by simp)

/-! ## Declarations -/

/-- What spells some words may spell others as well. -/
theorem Reads.reword {parser : Parser α} {allComments : α → Comments}
    {allWords others : α → List Word} (reads : Reads input parser allComments allWords)
    (respelled : ∀ value tokens, Spelled (allWords value) tokens → Spelled (others value) tokens) :
    Reads input parser allComments others := by
  refine reads_iff.mpr fun start value stop run => ?_
  obtain ⟨read, split, comments, spelled⟩ := reads_iff.mp reads start value stop run
  exact ⟨read, split, comments, respelled value _ spelled⟩

/-- A word that declares a fixity is the one for its associativity. -/
theorem word_of_fixityKeyword? {lexeme : Text} {associativity : Associativity}
    (found : fixityKeyword? lexeme = some associativity) :
    lexeme = Text.ofString associativity.word := by
  obtain ⟨entry, listed, rfl⟩ := Option.map_eq_some_iff.mp found
  have same : Text.ofString entry.1 = lexeme := by simpa using List.find?_some listed
  have member := List.mem_of_find?_eq_some listed
  rw [← same]
  simp only [List.mem_cons, List.not_mem_nil, or_false] at member
  rcases member with rfl | rfl | rfl <;> rfl

/-- The keyword of an infix declaration spells its associativity. -/
theorem fixityWord_reads (scanned : input.Scanned) (label : String) :
    Reads input (satisfy (fun token =>
      token.kind == .keyword && (fixityKeyword? token.lexeme).isSome) label) (fun _ => [])
      fun found => [Word.keyword ((fixityKeyword? found.lexeme).getD .none).word] := by
  refine satisfy_reads scanned (fun found _ isWord => ?_) _
  simp only [Bool.and_eq_true, beq_iff_eq] at isWord
  obtain ⟨associativity, same⟩ := Option.isSome_iff_exists.mp isWord.2
  refine ⟨by simp [isWord.1], .single ⟨found, rfl, isWord.1, ?_⟩⟩
  rw [same]
  exact word_of_fixityKeyword? same

/-- A number spells the precedence that it stands for, if it stands for one. -/
theorem precedence_reads (scanned : input.Scanned) (label : String) :
    Reads input (token .number label) (fun _ => []) fun found =>
      [(precedenceOf? found.lexeme).elim (exact .number found.lexeme) precedence] := by
  refine satisfy_reads scanned (fun found _ isNumber => ?_) _
  have same : found.kind = .number := by simpa using isNumber
  refine ⟨by simp [same], .single ?_⟩
  cases value : precedenceOf? found.lexeme with
  | none => exact ⟨found, rfl, same, rfl⟩
  | some value => exact ⟨found, rfl, same, by assumption⟩

/-- The operator of an infix declaration spells its name, in parentheses or without. -/
theorem fixityOperator_reads (scanned : input.Scanned) :
    Reads input (choice [parenthesizedOperator, operatorSymbol]) (fun _ => []) fun symbol =>
      [operatorName symbol] := by
  refine .choiceAfter ?_
  simp only [List.forall_mem_cons, List.not_mem_nil, false_imp_iff, implies_true, and_true]
  constructor
  · refine Reads.reword (parenthesizedOperator_reads scanned) fun symbol tokens spelled => ?_
    cases spelled with
    | cons opens further =>
      cases further with
      | cons names further =>
        cases further with
        | cons closes further =>
          cases further
          obtain ⟨opening, rfl, isOpening⟩ := opens
          obtain ⟨operator, rfl, isOperator⟩ := names
          obtain ⟨closing, rfl, isClosing⟩ := closes
          exact .single (.inr ⟨opening, operator, closing, rfl, isOpening, isOperator, isClosing⟩)
  · refine Reads.reword (operatorSymbol_reads scanned) fun symbol tokens spelled => ?_
    cases spelled with
    | cons names further =>
      cases further
      rw [List.append_nil]
      exact .single (.inl names)

/-- A fixity declaration reads as such, however its number is spelled and whether or not its
operator stands in parentheses. -/
theorem fixityDeclaration_reads (scanned : input.Scanned) :
    Reads input fixityDeclaration FixityDeclaration.allComments FixityDeclaration.words := by
  refine .bind (fixityWord_reads scanned _) fun keyword =>
    .bind whitespace_reads fun prePrecedence =>
    .bind (precedence_reads scanned _) fun found => ?_
  cases value : precedenceOf? found.lexeme with
  | none =>
    intro start result stop run
    cases run
  | some value =>
    refine .bind whitespace_reads fun preOperator => .bind (fixityOperator_reads scanned)
      fun operator => ?_
    refine .pure ?_ ?_
    · simp [Commented.pre]
    · simp [FixityDeclaration.words, Commented.pre]

/-- A constructor and its arguments read as such. -/
theorem variant_reads (scanned : input.Scanned) :
    Reads input variant (·.value.allComments) (·.value.words) := by
  refine Reads.located (.bind (upperName_reads scanned) fun name =>
    .bind (Reads.spaced (typeTerm_reads scanned)) fun arguments => ?_)
  exact .pure (by simp) (by simp [ConstructorVariant.words])

/-- There is at least one constructor. -/
theorem variantsUpTo_ne_nil {bound : Nat} {before : Comments}
    {found : List (Commented (Located ConstructorVariant))}
    (given : Gives input (variantsUpTo bound before) found) : found ≠ [] := by
  obtain ⟨start, stop, run⟩ := given
  cases bound with
  | zero => cases run
  | succ bound =>
    simp only [variantsUpTo, bind_done] at run
    obtain ⟨first, _, -, bar, _, -, further⟩ := run
    cases bar with
    | none =>
      rw [← (Outcome.done.inj further).1]
      exact List.cons_ne_nil _ _
    | some after =>
      obtain ⟨next, _, -, rest, _, -, result⟩ := by simpa only [bind_done] using further
      rw [← (Outcome.done.inj result).1]
      exact List.cons_ne_nil _ _

/-- Constructors read with bars between them, after the comments before the first one. -/
theorem variantsUpTo_reads (scanned : input.Scanned) (bound : Nat) (before : Comments) :
    Extends input before [] (variantsUpTo bound before)
      (·.flatMap (·.allComments (ConstructorVariant.allComments ·.value)))
      fun found => between (mark .pipe) (found.map (·.value.value.words)) := by
  induction bound generalizing before with
  | zero =>
    intro start value stop run
    cases run
  | succ bound ih =>
    have bar : Reads input variantBar id fun _ => [mark .pipe] :=
      Reads.attempt (.bind whitespace_reads fun comments =>
          .bind (mark_reads scanned (by decide) _) fun _ =>
        .pure (by simp) (by simp))
    refine .bind (variant_reads scanned) fun first => .bind bar.optional fun found => ?_
    cases found with
    | none => exact .pure (by simp [Commented.pre]) (by simp [Commented.pre, between])
    | some after =>
      refine .bind whitespace_reads fun next => ?_
      refine .bindAfter (before ++ (first.value.allComments ++ after)) (ih next) (by simp)
        fun rest given => ?_
      obtain ⟨second, others, rfl⟩ := List.exists_cons_of_ne_nil (variantsUpTo_ne_nil given)
      exact .pure (by simp) (by simp [between_cons])

/-- The declaration of a type or of another name for one reads as such. -/
theorem typeDeclaration_reads (scanned : input.Scanned) :
    Reads input typeDeclaration TopLevel.allComments TopLevel.words := by
  have aliasWord : Reads input aliasWord id fun _ => [lower "alias"] :=
    Reads.attempt (.bind whitespace_reads fun comments =>
        .bind (spelled_reads scanned (by decide) "alias") fun _ =>
      .pure (by simp) (by simp [lower]))
  refine .bind (keyword_reads scanned "type") fun _ => .bind aliasWord.optional fun isAlias =>
    .bind whitespace_reads fun preName => .bind (upperName_reads scanned) fun name =>
    .bind (Reads.spaced (lowerName_reads scanned)) fun parameters =>
      .bind whitespace_reads fun preEquals =>
    .bind (mark_reads scanned (by decide) _) fun _ => .bind whitespace_reads fun postEquals => ?_
  cases isAlias with
  | some preAlias =>
    refine .bind (typeExpression_reads scanned) fun type => .pure ?_ ?_
    · simp [TopLevel.allComments, Commented.pre]
    · simp [TopLevel.words, TypeAlias.words, Commented.pre, List.map_eq_flatMap]
  | none =>
    have constructors (before : Comments) : Extends input before [] (variants before)
        (·.flatMap (·.allComments (ConstructorVariant.allComments ·.value)))
        fun found => between (mark .pipe) (found.map (·.value.value.words)) :=
      variantsUpTo_reads scanned input.repetitionLimit before
    refine .bindAfter (preName ++ parameters.flatMap (·.allComments uncommented))
      (constructors (preEquals ++ postEquals)) (by simp) fun found _ => .pure ?_ ?_
    · simp [TopLevel.allComments, Commented.pre]
    · simp [TopLevel.words, Datatype.words, Commented.pre, List.map_eq_flatMap]

/-- A declaration at the top level reads as such. -/
theorem topLevel_reads (scanned : input.Scanned) :
    Reads input topLevel (·.value.allComments) (·.value.words) := by
  refine .bind position_reads fun start => ?_
  split
  · exact .fail _
  · refine .withReference (Reads.located (.choiceAfter ?_))
    simp only [List.forall_mem_cons, List.not_mem_nil, false_imp_iff, implies_true, and_true]
    refine ⟨?_, typeDeclaration_reads scanned, ?_⟩
    · exact .bind (fixityDeclaration_reads scanned) fun _ =>
        .pure (by simp [TopLevel.allComments]) (by simp [TopLevel.words])
    · exact .bind (declaration_reads scanned (expression_reads scanned)) fun _ =>
        .pure (by simp [TopLevel.allComments]) (by simp [TopLevel.words])

/-- Comments as entries hold these comments. -/
theorem allComments_commentEntries (comments : Located Comments) :
    (commentEntries comments).flatMap (·.value.allComments) = comments.value := by
  simp [commentEntries, List.flatMap_map, TopLevel.allComments]

/-- Comments as entries have no words. -/
theorem words_commentEntries (comments : Located Comments) :
    (commentEntries comments).flatMap (·.value.words) = [] := by
  simp [commentEntries, List.flatMap_map, TopLevel.words]

/-- Declarations read as one after the other, with the comments between them. -/
theorem declarationsUpTo_reads (scanned : input.Scanned) (bound : Nat) :
    Reads input (declarationsUpTo bound) (·.flatMap (·.value.allComments))
      (·.flatMap (·.value.words)) := by
  induction bound with
  | zero =>
    intro start value stop run
    cases run
  | succ bound ih =>
    refine .bind peek_reads fun next => ?_
    split
    · exact .pure (by simp) (by simp)
    · refine .bind (topLevel_reads scanned) fun entry => .bind whitespace_reads.located
        fun comments =>
        .bind ih fun rest => .pure ?_ ?_
      · simp [allComments_commentEntries]
      · simp [words_commentEntries]

/-- A whole source file reads as such. -/
theorem module_reads (scanned : input.Scanned) :
    Reads input module Module.allComments Module.words := by
  have imports (pending : Located Comments) : Extends input pending.value []
      (fun input => importsUpTo input.repetitionLimit pending input)
      (fun found => found.1.flatMap (·.allComments (Import.allComments ·.value)) ++ found.2.value)
      fun found => found.1.flatMap (·.value.value.words) :=
    importsUpTo_reads scanned input.repetitionLimit pending
  have declarations : Reads input (fun input => declarationsUpTo input.repetitionLimit input)
      (·.flatMap (·.value.allComments)) (·.flatMap (·.value.words)) :=
    declarationsUpTo_reads scanned input.repetitionLimit
  refine .bind whitespace_reads fun initial =>
    .bind (moduleHeader_reads scanned).optional fun header =>
    .bind whitespace_reads.located fun pending => ?_
  refine .bindAfter (initial ++ header.elim [] (·.value.allComments)) (imports pending) (by simp)
    fun ⟨found, last⟩ _ => ?_
  refine .bind declarations fun entries => .bind eof_reads fun _ => .pure ?_ ?_
  · simp [Module.allComments, allComments_commentEntries]
  · simp [Module.words, words_commentEntries]

/-- What stands alone in a source reads as itself and the comments around it. -/
theorem whole_reads {parser : Parser α} {allComments : α → Comments} {allWords : α → List Word}
    (reads : Reads input parser allComments allWords) :
    Reads input (whole parser) (·.allComments allComments) (allWords ·.value) := by
  refine .bind whitespace_reads fun before => .bind (Extends.withReference reads) fun value =>
    .bind whitespace_reads fun after => .bind eof_reads fun _ => ?_
  exact .pure (by simp) (by simp)

end Marginalia.Grammar
