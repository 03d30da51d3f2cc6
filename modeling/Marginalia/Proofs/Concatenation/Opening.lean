import Marginalia.Proofs.Concatenation.Expression
import Marginalia.Proofs.Concatenation.Nesting
import Marginalia.Proofs.Indentation.Module
import Mathlib.Data.List.Find
import Marginalia.Proofs.Spelling.Source

/-!
# How a declaration opens

The first token of a declaration is one that a declaration begins with, which `Opens` follows
through the rules, and the first token that parts it is a word that declares something, a colon or
an equals sign.
-/

namespace Marginalia

open Marginalia.Parser

variable {α β : Type} {input : Input} {start stop : Cursor}

namespace Parser

/-! ## The first token -/

/-- A successful run of the parser begins at a token that a declaration begins with. -/
class Opens (parser : Parser α) : Prop where
  /-- The next token before the run is such a token. -/
  opens {input : Input} {start stop : Cursor} {value : α}
    (run : parser input start = .done value stop) :
    ∃ token, input.tokenAt? start.index = some token ∧ token.Begins

/-- Reading a token that a declaration begins with. -/
theorem Opens.satisfy {property : Token → Bool} {label : String}
    (begins : ∀ token, property token = true → token.Begins) : Opens (satisfy property label) where
  opens run := by
    obtain ⟨found, ⟨-, -, holds⟩, -⟩ := satisfy_done run
    exact ⟨_, found, begins _ holds⟩

/-- A token begins a declaration if it neither joins nor is a reserved word. -/
theorem begins_of_kind {token : Token} (apart : token.kind.joins = false)
    (notWord : token.kind ≠ .keyword) : token.Begins := by
  refine ⟨?_, fun isWord => absurd isWord notWord⟩
  rintro (joins | ⟨isWord, -⟩)
  · rw [apart] at joins
    cases joins
  · exact notWord isWord

/-- Reading a token of a kind that neither joins nor is that of reserved words. -/
theorem token_opens {kind : TokenKind} (label : String) (apart : kind.joins = false)
    (notWord : kind ≠ .keyword) : Opens (token kind label) := by
  refine .satisfy fun token holds => begins_of_kind ?_ ?_
  · rwa [beq_iff_eq.mp holds]
  · rwa [beq_iff_eq.mp holds]

section Tokens

variable (label : String)

instance lowerIdentifierToken_opens : Opens (token .lowerIdentifier label) :=
  token_opens label rfl (by simp)

instance upperIdentifierToken_opens : Opens (token .upperIdentifier label) :=
  token_opens label rfl (by simp)

instance leftParenToken_opens : Opens (token .leftParen label) := token_opens label rfl (by simp)

instance leftBraceToken_opens : Opens (token .leftBrace label) := token_opens label rfl (by simp)

instance leftBracketToken_opens : Opens (token .leftBracket label) :=
  token_opens label rfl (by simp)

end Tokens

instance fail_opens (expected : List String) : Opens (fail expected : Parser α) :=
  ⟨fun run => absurd run (fail_ne_done _ _ _ _ _)⟩

instance interrupt_opens (interruption : Interruption) :
    Opens (interrupt interruption : Parser α) := ⟨nofun⟩

section Combinators

variable (parser : Parser α) [opens : Opens parser]

instance bindFirst_opens (next : α → Parser β) : Opens (parser >>= next) where
  opens run := by
    obtain ⟨_, _, begins, -⟩ := bind_done.mp run
    exact opens.opens begins

instance attempt_opens : Opens (attempt parser) := ⟨fun run => opens.opens (attempt_done.mp run)⟩

instance expecting_opens (label : String) : Opens (expecting label parser) :=
  ⟨fun run => opens.opens (expecting_done run)⟩

instance located_opens : Opens (located parser) := ⟨fun run => opens.opens (located_done run).2⟩

instance trackNewline_opens : Opens (trackNewline parser) :=
  ⟨fun run => opens.opens (trackNewline_done run).1⟩

instance withReference_opens : Opens (withReference parser) where
  opens run := by
    obtain ⟨_, inner, -⟩ := withReference_done run
    have begins := opens.opens inner
    exact begins

end Combinators

instance peekThat_opens (property : Token → Bool) (next : Bool → Parser α)
    [opens : ∀ holds, Opens (next holds)] : Opens (peekThat property >>= next) where
  opens run := by
    obtain ⟨holds, _, looked, rest⟩ := bind_done.mp run
    obtain ⟨rfl, -⟩ := peekThat_done looked
    exact (opens holds).opens rest

instance position_opens (next : Position → Parser α) [opens : ∀ place, Opens (next place)] :
    Opens (position >>= next) where
  opens run := by
    obtain ⟨place, _, same, rest⟩ := bind_done.mp run
    obtain ⟨rfl, rfl⟩ := Outcome.done.inj same
    exact (opens _).opens rest

instance ite_opens (condition : Prop) [Decidable condition] (yes no : Parser α) [Opens yes]
    [Opens no] : Opens (if condition then yes else no) := by
  split <;> infer_instance

/-- Alternatives that all begin at such a token. -/
class AllOpen (parsers : List (Parser α)) : Prop where
  /-- Each of them does. -/
  each : ∀ parser ∈ parsers, Opens parser

instance nil_allOpen : AllOpen ([] : List (Parser α)) := ⟨List.forall_mem_nil _⟩

instance cons_allOpen (parser : Parser α) (rest : List (Parser α)) [first : Opens parser]
    [others : AllOpen rest] : AllOpen (parser :: rest) :=
  ⟨List.forall_mem_cons.mpr ⟨first, others.each⟩⟩

/-- A choice begins at such a token if each of its alternatives does. -/
theorem choiceAfter_opens (label : Option String) (expected : List String)
    (alternatives : List (Parser α)) [all : AllOpen alternatives] :
    Opens (choiceAfter label expected alternatives) where
  opens run := by
    obtain ⟨parser, member, chosen⟩ := choiceAfter_done run
    exact (all.each parser member).opens chosen

instance choice_opens (alternatives : List (Parser α)) [AllOpen alternatives] :
    Opens (choice alternatives) :=
  choiceAfter_opens _ _ _

instance choiceNamed_opens (label : String) (alternatives : List (Parser α))
    [AllOpen alternatives] : Opens (choiceNamed label alternatives) := choiceAfter_opens _ _ _

end Parser

namespace Grammar

/-! ## Declarations -/

instance literal_opens : Opens literal := by
  have word : Opens (satisfy (fun token =>
        token.kind == .number || token.kind == .string || token.kind == .char) "a literal") := by
    refine .satisfy fun token holds => ?_
    have kinds : token.kind = .number ∨ token.kind = .string ∨ token.kind = .char := by
      simpa [or_assoc] using holds
    rcases kinds with kind | kind | kind <;>
      exact begins_of_kind (by rw [kind]; rfl) (by rw [kind]; nofun)
  unfold literal
  infer_instance

instance parenthesizedOperator_opens : Opens parenthesizedOperator := by
  unfold parenthesizedOperator
  infer_instance

instance patternTermOver_opens (pattern : Parser Pattern) : Opens (patternTermOver pattern) := by
  unfold patternTermOver patternOf recordPattern tuplePattern listPattern group wordPattern
    peekSpelled peekIs lowerName qualifiedUpperName upperName
  infer_instance

instance patternTerm_opens : Opens patternTerm where
  opens {input _ _ _} run := by
    have within (levels : Nat) : Opens (patternTermWithin levels) := by
      cases levels <;> unfold patternTermWithin <;> infer_instance
    exact (within input.nestingLimit).opens run

instance declaration_opens (expression : Parser Expression) : Opens (declaration expression) := by
  unfold declaration signature signatureHead definition definitionHead lowerName patternOf
  infer_instance

/-- A reserved word that declares something begins a declaration. -/
theorem begins_of_word {token : Token} (kind : token.kind = .keyword) {word : String}
    (member : word ∈ declaringWords) (lexeme : token.lexeme = Text.ofString word) :
    token.Begins := by
  refine ⟨?_, fun _ => ⟨word, member, lexeme⟩⟩
  have apart : ∀ word ∈ declaringWords, ∀ other ∈ joiningWords,
        Text.ofString word ≠ Text.ofString other := by decide
  rintro (joins | ⟨-, other, joining, same⟩)
  · rw [kind] at joins
    cases joins
  · exact apart word member other joining (lexeme.symm.trans same)

instance typeDeclaration_opens : Opens typeDeclaration := by
  have word : Opens (keyword "type") := by
    refine .satisfy fun token holds => ?_
    obtain ⟨kind, lexeme⟩ := Bool.and_eq_true_iff.mp holds
    exact begins_of_word (beq_iff_eq.mp kind) (by decide) (beq_iff_eq.mp lexeme)
  unfold typeDeclaration
  infer_instance

instance fixityDeclaration_opens : Opens fixityDeclaration := by
  have word : Opens (satisfy (fun token => token.kind == .keyword &&
        (fixityKeyword? token.lexeme).isSome) "an infix declaration") := by
    refine .satisfy fun token holds => ?_
    obtain ⟨kind, declares⟩ := Bool.and_eq_true_iff.mp holds
    obtain ⟨associativity, found⟩ := Option.isSome_iff_exists.mp declares
    have member : associativity.word ∈ declaringWords := by cases associativity <;> decide
    exact begins_of_word (beq_iff_eq.mp kind) member (word_of_fixityKeyword? found)
  unfold fixityDeclaration
  infer_instance

instance topLevel_opens : Opens topLevel := by unfold topLevel; infer_instance

/-- A declaration at the top level begins in the first column. -/
theorem topLevel_column {entry : Located TopLevel} (run : topLevel input start = .done entry stop) :
    start.position.column = 1 := by
  obtain ⟨place, _, same, rest⟩ := bind_done.mp run
  obtain ⟨rfl, rfl⟩ := Outcome.done.inj same
  split at rest
  · exact absurd rest (fail_ne_done _ _ _ _ _)
  · rename_i first
    exact Decidable.not_not.mp first

/-- A word that begins a declaration, or stands behind its name. -/
inductive Declares : Word → Prop where
  | equals : Declares (.mark .equals)
  | colon : Declares (.mark .colon)
  | keyword {word : String} (member : word ∈ declaringWords) : Declares (.keyword word)

/-- The token that spells such a word parts a declaration, and is neither an arrow nor two dots. -/
theorem Declares.token {word : Word} {tokens : List Token} (declares : Declares word)
    (spells : word.Spells tokens) :
    ∃ token, tokens = [token] ∧ token.parts = true ∧ token.kind ≠ .arrow ∧ token.kind ≠ .range := by
  cases declares with
  | equals =>
    obtain ⟨token, rfl, kind, -⟩ := spells
    exact ⟨token, rfl, by simp [Token.parts, partingKinds, kind], by simp [kind], by simp [kind]⟩
  | colon =>
    obtain ⟨token, rfl, kind, -⟩ := spells
    exact ⟨token, rfl, by simp [Token.parts, partingKinds, kind], by simp [kind], by simp [kind]⟩
  | keyword member =>
    obtain ⟨token, rfl, kind, lexeme⟩ := spells
    have listed : (declaringWords.any fun word => token.lexeme == Text.ofString word) = true :=
      List.any_eq_true.mpr ⟨_, member, beq_iff_eq.mpr lexeme⟩
    exact ⟨token, rfl, by simp [Token.parts, kind, listed], by simp [kind], by simp [kind]⟩

/-- Before the first such word there are words of a pattern only. -/
theorem words_split {entry : TopLevel} (solid : entry.isComment = false) :
    ∃ before word after, entry.words = before ++ word :: after ∧ before.all Word.inPattern = true ∧
      Declares word := by
  cases entry with
  | declaration declaration =>
    cases declaration with
    | definition definition =>
      refine ⟨definition.pattern.words ++ definition.arguments.flatMap (·.value.words), _,
        definition.body.words, ?_, ?_, .equals⟩
      · simp [TopLevel.words, Declaration.words, Definition.words]
      · rw [List.all_append, definition.pattern.inPattern_words, List.all_flatMap]
        exact List.all_eq_true.mpr fun argument _ => argument.value.inPattern_words
    | signature signature =>
      refine ⟨signature.name.value.words, _, signature.type.value.words, rfl, ?_, .colon⟩
      cases signature.name.value <;> rfl
  | fixity fixity =>
    refine ⟨[], .keyword fixity.associativity.word, _, rfl, rfl, .keyword ?_⟩
    cases fixity.associativity <;> decide
  | typeAlias declaration => exact ⟨[], .keyword "type", _, rfl, rfl, .keyword (by decide)⟩
  | datatype datatype => exact ⟨[], .keyword "type", _, rfl, rfl, .keyword (by decide)⟩
  | comment comment => cases solid

/-- The declaration of a type is no comment. -/
theorem typeDeclaration_isComment {entry : TopLevel}
    (run : typeDeclaration input start = .done entry stop) : entry.isComment = false := by
  simp only [typeDeclaration, bind_done] at run
  obtain ⟨_, _, -, aliasComments, _, -, _, _, -, _, _, -, _, _, -, _, _, -, _, _, -, _,
      _, -, made⟩ := run
  cases aliasComments with
  | none =>
    obtain ⟨_, _, -, result⟩ := bind_done.mp made
    obtain ⟨rfl, -⟩ := Outcome.done.inj result
    rfl
  | some comments =>
    obtain ⟨_, _, -, result⟩ := bind_done.mp made
    obtain ⟨rfl, -⟩ := Outcome.done.inj result
    rfl

/-- A declaration at the top level is no comment. -/
theorem topLevel_isComment {entry : Located TopLevel}
    (run : topLevel input start = .done entry stop) : entry.value.isComment = false := by
  obtain ⟨_, _, -, rest⟩ := bind_done.mp run
  split at rest
  · exact absurd rest (fail_ne_done _ _ _ _ _)
  · obtain ⟨_, inner, -⟩ := withReference_done rest
    obtain ⟨-, chosen⟩ := located_done inner
    obtain ⟨parser, member, made⟩ := choiceAfter_done chosen
    simp only [List.mem_cons, List.not_mem_nil, or_false] at member
    rcases member with rfl | rfl | rfl
    · obtain ⟨_, _, -, result⟩ := bind_done.mp made
      rw [← (Outcome.done.inj result).1]
      rfl
    · exact typeDeclaration_isComment made
    · obtain ⟨_, _, -, result⟩ := bind_done.mp made
      rw [← (Outcome.done.inj result).1]
      rfl

/-- What spells words one after the other falls into what spells each of them. -/
theorem spelled_append {first second : List Word} {tokens : List Token}
    (spelled : Spelled (first ++ second) tokens) :
    ∃ before after, tokens = before ++ after ∧ Spelled first before ∧ Spelled second after := by
  induction first generalizing tokens with
  | nil => exact ⟨[], tokens, rfl, .nil, spelled⟩
  | cons word words ih =>
    cases spelled with
    | cons spells further =>
      obtain ⟨before, after, rfl, firsts, seconds⟩ := ih further
      exact ⟨_, after, (List.append_assoc _ _ _).symm, .cons spells firsts, seconds⟩

/-- Comments and the end of a source part nothing. -/
theorem find?_parts_solidOf (tokens : List Token) :
    (solidOf tokens).find? (·.parts) = tokens.find? (·.parts) := by
  rw [solidOf, List.find?_filter]
  refine List.find?_congr fun token _ => ?_
  by_cases solid : (!token.isComment && token.kind != .eof) = true
  · simp [solid]
  · have nothing : solidOf [token] = [] := by simp [solidOf, solid]
    have plain : token.parts = false :=
      parts_of_solidOf (by simp [nothing]) token (List.mem_singleton_self _)
    simp [plain]

/-- What parts a declaration first is neither an arrow nor two dots. -/
theorem topLevel_declares (scanned : input.Scanned) {entry : Located TopLevel}
    (run : topLevel input start = .done entry stop) :
    ∀ token ∈ (input.tokens.toList.drop start.index).find? (·.parts), token.kind ≠ .arrow ∧
      token.kind ≠ .range := by
  obtain ⟨read, split, -, spelled⟩ := reads_iff.mp (topLevel_reads scanned) start entry stop run
  obtain ⟨before, word, after, words, plain, declares⟩ := words_split (topLevel_isComment run)
  rw [words] at spelled
  obtain ⟨pattern, others, solid, inPattern, further⟩ := spelled_append spelled
  cases further with
  | @cons _ _ spelling rest spells _ =>
    obtain ⟨token, rfl, parts, notArrow, notRange⟩ := declares.token spells
    have first : read.find? (·.parts) = some token := by
      rw [← find?_parts_solidOf, solid, List.find?_append,
        List.find?_eq_none.mpr fun other member => by simp [inPattern.parts plain other member]]
      simp [parts]
    rw [split, List.find?_append, first]
    intro found same
    obtain rfl := Option.some.inj same
    exact ⟨notArrow, notRange⟩

end Grammar

end Marginalia
