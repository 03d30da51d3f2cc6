import Marginalia.Proofs.Concatenation.Sequel
import Marginalia.Proofs.Parser.Refusal

/-!
# Where runs stop

At the end of a source no rule finds a token to begin with, and where a declaration begins no rule
does that only continues something. `Stops` says so of a parser: there it leaves the cursor, and
whether it succeeds is told. It is a class, so that instance search goes along the rules of the
grammar.
-/

namespace Marginalia

open Marginalia.Parser

variable {α β : Type}

/-- The outcome leaves the cursor, as a success or as a mismatch. -/
def Outcome.Stays (succeeds : Bool) (cursor : Cursor) : Outcome α → Prop
  | done _ after => succeeds = true ∧ after = cursor
  | failed (.rejected _) after => succeeds = false ∧ after = cursor
  | failed (.interrupted _) _ => False

/-- The kind is that of an opening bracket. -/
class TokenKind.Opening (kind : TokenKind) : Prop where
  /-- The kind is one of the three. -/
  mem : kind ∈ [leftParen, leftBrace, leftBracket]

/-- The kind is that of a closing bracket. -/
class TokenKind.Closing (kind : TokenKind) : Prop where
  /-- The kind is one of the three. -/
  mem : kind ∈ [rightParen, rightBrace, rightBracket]

instance leftParen_opening : TokenKind.leftParen.Opening := ⟨by decide⟩

instance leftBrace_opening : TokenKind.leftBrace.Opening := ⟨by decide⟩

instance leftBracket_opening : TokenKind.leftBracket.Opening := ⟨by decide⟩

instance rightParen_closing : TokenKind.rightParen.Closing := ⟨by decide⟩

instance rightBrace_closing : TokenKind.rightBrace.Closing := ⟨by decide⟩

instance rightBracket_closing : TokenKind.rightBracket.Closing := ⟨by decide⟩

/-- An opening bracket waits, and is neither the end of the source nor a reserved word. -/
theorem TokenKind.Opening.plain {kind : TokenKind} (opening : kind.Opening) :
    kind ≠ .eof ∧ kind ≠ .keyword ∧ kind.waits = true := by
  have all : ∀ kind ∈ [leftParen, leftBrace, leftBracket], kind ≠ .eof ∧ kind ≠ .keyword ∧
        kind.waits = true := by decide
  exact all kind opening.mem

/-- A closing bracket joins, and is neither the end of the source nor a reserved word. -/
theorem TokenKind.Closing.plain {kind : TokenKind} (closing : kind.Closing) :
    kind ≠ .eof ∧ kind ≠ .keyword ∧ kind.joins = true := by
  have all : ∀ kind ∈ [rightParen, rightBrace, rightBracket], kind ≠ .eof ∧ kind ≠ .keyword ∧
        kind.joins = true := by decide
  exact all kind closing.mem

namespace Parser

/-- At the end of the source, and if this is asked where a declaration begins, a run leaves the
cursor and succeeds or fails as told. -/
class Stops (atDeclaration : Bool) (succeeds : outParam Bool) (parser : Parser α) : Prop where
  /-- The run leaves the cursor. -/
  stays {input : Input} {cursor : Cursor} {token : Token}
    (found : input.tokenAt? cursor.index = some token)
    (place : token.kind = .eof ∨ atDeclaration = true ∧ token.Begins) :
    (parser input cursor).Stays succeeds cursor

section Stops

variable {atDeclaration succeeds : Bool}

instance pure_stops (value : α) : Stops atDeclaration true (pure value : Parser α) :=
  ⟨fun _ _ => ⟨rfl, rfl⟩⟩

instance position_stops : Stops atDeclaration true position := ⟨fun _ _ => ⟨rfl, rfl⟩⟩

instance cursor_stops : Stops atDeclaration true cursor := ⟨fun _ _ => ⟨rfl, rfl⟩⟩

instance peek_stops : Stops atDeclaration true peek where
  stays found _ := by
    rw [peek_apply, found]
    exact ⟨rfl, rfl⟩

instance peekThat_stops (property : Token → Bool) :
    Stops atDeclaration true (peekThat property) where
  stays found _ := by
    rw [peekThat_apply, found]
    exact ⟨rfl, rfl⟩

instance peekIs_stops (kind : TokenKind) : Stops atDeclaration true (peekIs kind) := by
  unfold peekIs
  infer_instance

instance peekSpelled_stops (kind : TokenKind) (lexeme : Text) :
    Stops atDeclaration true (peekSpelled kind lexeme) := by
  unfold peekSpelled; infer_instance

instance fail_stops (expected : List String) :
    Stops atDeclaration false (fail expected : Parser α) where
  stays found _ := by
    rw [fail_apply, found]
    exact ⟨rfl, rfl⟩

/-- A sequence stops where its first part does. -/
theorem Stops.bindFirst {parser : Parser α} (first : Stops atDeclaration false parser)
    (next : α → Parser β) : Stops atDeclaration false (parser >>= next) where
  stays {input cursor token} found place := by
    have stays := first.stays found place
    rw [bind_apply]
    generalize parser input cursor = outcome at stays
    match outcome, stays with
    | .failed (.rejected _) _, stays => exact stays
    | .done _ _, stays => cases stays.1

/-- A sequence that goes on stops where its second part does. -/
theorem Stops.bindSecond {parser : Parser α} {next : α → Parser β}
    (first : Stops atDeclaration true parser)
    (second : ∀ value, Stops atDeclaration succeeds (next value)) :
    Stops atDeclaration succeeds (parser >>= next) where
  stays {input cursor token} found place := by
    have stays := first.stays found place
    rw [bind_apply]
    generalize parser input cursor = outcome at stays
    match outcome, stays with
    | .failed (.rejected _) _, stays => cases stays.1
    | .done value after, stays =>
      obtain rfl := stays.2
      exact (second value).stays found place

instance bindFirst_stops (parser : Parser α) (next : α → Parser β)
    [first : Stops atDeclaration false parser] : Stops atDeclaration false (parser >>= next) :=
  first.bindFirst next

instance bindSecond_stops (parser : Parser α) (next : α → Parser β)
    [first : Stops atDeclaration true parser]
    [second : ∀ value, Stops atDeclaration succeeds (next value)] :
    Stops atDeclaration succeeds (parser >>= next) :=
  first.bindSecond second

instance ite_stops (condition : Prop) [Decidable condition] (yes no : Parser α)
    [Stops atDeclaration succeeds yes] [Stops atDeclaration succeeds no] :
    Stops atDeclaration succeeds (if condition then yes else no) := by
  split <;> infer_instance

/-- A token is not read where it can be neither the end of the source nor the first one of a
declaration. -/
theorem Stops.satisfy {property : Token → Bool} (label : String)
    (notEnd : ∀ token, property token = true → token.kind ≠ .eof)
    (continues : atDeclaration = true → ∀ token, property token = true → ¬ token.Begins) :
    Stops atDeclaration false (satisfy property label) where
  stays {input cursor token} found place := by
    have unread : ¬ Readable property token cursor := by
      rintro ⟨-, -, holds⟩
      rcases place with ends | ⟨declaration, begins⟩
      · exact notEnd token holds ends
      · exact continues declaration token holds begins
    rw [satisfy_apply, found]
    simp only [if_neg unread]
    exact ⟨rfl, rfl⟩

/-- A token of a kind that nothing begins with is not read. -/
theorem joiningToken_stops {kind : TokenKind} {label : String} (joins : kind.joins = true) :
    Stops atDeclaration false (token kind label) := by
  refine .satisfy label (fun _ holds ends => ?_) fun _ _ holds begins => begins.apart (.inl ?_)
  · rw [← beq_iff_eq.mp holds, ends] at joins
    cases joins
  · rwa [beq_iff_eq.mp holds]

/-- At the end of the source no token is read. -/
theorem token_stops {kind : TokenKind} {label : String} (notEnd : kind ≠ .eof) :
    Stops false false (token kind label) :=
  .satisfy label (fun _ holds ends => notEnd ((beq_iff_eq.mp holds).symm.trans ends)) nofun

section Tokens

variable (label : String)

instance operatorToken_stops : Stops atDeclaration false (token .operator label) :=
  joiningToken_stops rfl

instance commaToken_stops : Stops atDeclaration false (token .comma label) := joiningToken_stops rfl

instance dotToken_stops : Stops atDeclaration false (token .dot label) := joiningToken_stops rfl

instance rangeToken_stops : Stops atDeclaration false (token .range label) := joiningToken_stops rfl

instance colonToken_stops : Stops atDeclaration false (token .colon label) := joiningToken_stops rfl

instance equalsToken_stops : Stops atDeclaration false (token .equals label) :=
  joiningToken_stops rfl

instance pipeToken_stops : Stops atDeclaration false (token .pipe label) := joiningToken_stops rfl

instance arrowToken_stops : Stops atDeclaration false (token .arrow label) := joiningToken_stops rfl

instance lowerIdentifierToken_stops : Stops false false (token .lowerIdentifier label) :=
  token_stops nofun

instance upperIdentifierToken_stops : Stops false false (token .upperIdentifier label) :=
  token_stops nofun

instance shaderToken_stops : Stops false false (token .shader label) := token_stops nofun

instance openingToken_stops (kind : TokenKind) [opening : kind.Opening] :
    Stops false false (token kind label) :=
  token_stops opening.plain.1

instance closingToken_stops (kind : TokenKind) [closing : kind.Closing] :
    Stops atDeclaration false (token kind label) :=
  joiningToken_stops closing.plain.2.2

end Tokens

instance operator_stops (symbol : String) : Stops atDeclaration false (operator symbol) := by
  refine .satisfy _ (fun token holds ends => ?_) fun _ token holds begins => begins.apart (.inl ?_)
  · rw [(isSpelled_iff.mp holds).1] at ends
    cases ends
  · rw [(isSpelled_iff.mp holds).1]
    rfl

/-- A reserved word that declares nothing is not read. -/
theorem continuingKeyword_stops {word : String}
    (notDeclaring : ∀ other ∈ declaringWords, Text.ofString word ≠ Text.ofString other) :
    Stops atDeclaration false (keyword word) := by
  refine .satisfy _ (fun token holds ends => ?_) fun _ token holds begins => ?_
  · have kind := (isSpelled_iff.mp holds).1
    rw [ends] at kind
    cases kind
  · obtain ⟨kind, lexeme⟩ := isSpelled_iff.mp holds
    obtain ⟨other, member, same⟩ := begins.word kind
    exact notDeclaring other member (lexeme.symm.trans same)

instance then_stops : Stops atDeclaration false (keyword "then") :=
  continuingKeyword_stops (by decide)

instance else_stops : Stops atDeclaration false (keyword "else") :=
  continuingKeyword_stops (by decide)

instance of_stops : Stops atDeclaration false (keyword "of") := continuingKeyword_stops (by decide)

instance in_stops : Stops atDeclaration false (keyword "in") := continuingKeyword_stops (by decide)

instance as_stops : Stops atDeclaration false (keyword "as") := continuingKeyword_stops (by decide)

instance exposing_stops : Stops atDeclaration false (keyword "exposing") :=
  continuingKeyword_stops (by decide)

/-! ## Combinators -/

instance located_stops (parser : Parser α) [stops : Stops atDeclaration succeeds parser] :
    Stops atDeclaration succeeds (located parser) where
  stays {input cursor token} found place := by
    have stays := stops.stays found place
    have apply : located parser input cursor =
        match parser input cursor with
        | .done value stop => .done ⟨⟨cursor.position, stop.position⟩, value⟩ stop
        | .failed failure stop => .failed failure stop := rfl
    rw [apply]
    generalize parser input cursor = outcome at stays
    match outcome, stays with
    | .failed (.rejected _) _, stays => exact stays
    | .done _ _, stays => exact stays

instance trackNewline_stops (parser : Parser α) [stops : Stops atDeclaration succeeds parser] :
    Stops atDeclaration succeeds (trackNewline parser) where
  stays {input cursor token} found place := by
    have stays := stops.stays found place
    unfold trackNewline
    generalize parser input cursor = outcome at stays
    match outcome, stays with
    | .failed (.rejected _) _, stays => exact stays
    | .done _ _, stays => exact stays

instance attempt_stops (parser : Parser α) [stops : Stops atDeclaration succeeds parser] :
    Stops atDeclaration succeeds (attempt parser) where
  stays {input cursor token} found place := by
    have stays := stops.stays found place
    unfold attempt
    generalize parser input cursor = outcome at stays
    match outcome, stays with
    | .failed (.rejected _) _, stays => exact ⟨stays.1, rfl⟩
    | .done _ _, stays => exact stays

instance expecting_stops (label : String) (parser : Parser α)
    [stops : Stops atDeclaration succeeds parser] :
    Stops atDeclaration succeeds (expecting label parser) where
  stays {input cursor token} found place := by
    have stays := stops.stays found place
    unfold expecting
    generalize parser input cursor = outcome at stays
    match outcome, stays with
    | .failed (.rejected _) after, stays =>
      obtain ⟨rfl, rfl⟩ := stays
      simp only [Cursor.not_movedFrom, fail_apply, found]
      exact ⟨rfl, rfl⟩
    | .done _ _, stays => exact stays

instance optional_stops (parser : Parser α) [stops : Stops atDeclaration false parser] :
    Stops atDeclaration true (optional parser) where
  stays {input cursor token} found place := by
    have stays := stops.stays found place
    unfold optional
    generalize parser input cursor = outcome at stays
    match outcome, stays with
    | .failed (.rejected _) after, stays =>
      obtain ⟨-, rfl⟩ := stays
      simp only [Cursor.not_movedFrom]
      exact ⟨rfl, rfl⟩
    | .done _ _, stays => cases stays.1

/-- Alternatives that all fail. -/
class AllStop (atDeclaration : Bool) (parsers : List (Parser α)) : Prop where
  /-- Each of them does. -/
  each : ∀ parser ∈ parsers, Stops atDeclaration false parser

instance nil_allStop : AllStop atDeclaration ([] : List (Parser α)) := ⟨List.forall_mem_nil _⟩

instance cons_allStop (parser : Parser α) (rest : List (Parser α))
    [first : Stops atDeclaration false parser] [others : AllStop atDeclaration rest] :
    AllStop atDeclaration (parser :: rest) :=
  ⟨List.forall_mem_cons.mpr ⟨first, others.each⟩⟩

instance choice_stops (alternatives : List (Parser α)) [all : AllStop atDeclaration alternatives] :
    Stops atDeclaration false (choice alternatives) where
  stays {input cursor token} found place := by
    have stays (expected : List String) :
        (choiceAfter none expected alternatives input cursor).Stays false cursor := by
      have each := all.each
      clear all
      induction alternatives generalizing expected with
      | nil =>
        simp only [choiceAfter, fail_apply, found]
        exact ⟨rfl, rfl⟩
      | cons parser rest ih =>
        have stays := (each parser (.head _)).stays found place
        simp only [choiceAfter]
        generalize parser input cursor = outcome at stays
        match outcome, stays with
        | .failed (.rejected _) after, stays =>
          obtain ⟨-, rfl⟩ := stays
          simp only [Cursor.not_movedFrom]
          exact ih _ fun other member => each other (.tail _ member)
        | .done _ _, stays => cases stays.1
    exact stays []

instance map_stops (change : α → β) (parser : Parser α) [stops : Stops atDeclaration false parser] :
    Stops atDeclaration false (change <$> parser) :=
  stops.bindFirst fun value => pure (change value)

instance valuesUpTo_stops (parser : Parser (Option α)) [stops : Stops atDeclaration false parser]
    (bound : Nat) : Stops atDeclaration true (valuesUpTo parser (bound + 1)) where
  stays {input cursor token} found place := by
    have stays := stops.stays found place
    rw [valuesUpTo, bind_apply]
    show ((optional parser >>= _) input cursor).Stays true cursor
    rw [bind_apply]
    unfold optional
    generalize parser input cursor = outcome at stays
    match outcome, stays with
    | .failed (.rejected _) after, stays =>
      obtain ⟨-, rfl⟩ := stays
      simp only [Cursor.not_movedFrom]
      exact ⟨rfl, rfl⟩
    | .done _ _, stays => cases stays.1

instance many_stops (parser : Parser α) [Stops atDeclaration false parser] :
    Stops atDeclaration true (many parser) where
  stays {input cursor token} found place := by
    obtain ⟨bound, limit⟩ : ∃ bound, input.repetitionLimit = bound + 1 :=
      ⟨input.repetitionLimit - 1, by unfold Input.repetitionLimit; omega⟩
    unfold many values
    rw [limit]
    exact (valuesUpTo_stops (some <$> parser) bound).stays found place

end Stops

/-- A run that stays and does not succeed fails. -/
theorem rejected_of_stays {outcome : Outcome α} {cursor : Cursor}
    (stays : outcome.Stays false cursor) : ∃ error, outcome = .failed (.rejected error) cursor := by
  match outcome, stays with
  | .failed (.rejected error) _, stays => exact ⟨error, by rw [stays.2]⟩
  | .done _ _, stays => cases stays.1

/-- A run that stays and succeeds leaves the cursor. -/
theorem done_of_stays {outcome : Outcome α} {cursor : Cursor} (stays : outcome.Stays true cursor) :
    ∃ value, outcome = .done value cursor := by
  match outcome, stays with
  | .failed (.rejected error) _, stays => cases stays.1
  | .done value _, stays => exact ⟨value, by rw [stays.2]⟩

/-- Nothing is read at the end of a source, though the run may be cut off there. -/
class Barren (parser : Parser α) : Prop where
  /-- A run from the end of the source is cut off, or fails. -/
  barren {input : Input} {cursor : Cursor} {token : Token}
    (found : input.tokenAt? cursor.index = some token) (ends : token.kind = .eof) :
    ∃ failure after, parser input cursor = .failed failure after

instance stops_barren (parser : Parser α) [stops : Stops false false parser] : Barren parser where
  barren found ends := by
    obtain ⟨_, same⟩ := rejected_of_stays (stops.stays found (.inl ends))
    exact ⟨_, _, same⟩

instance interrupt_barren (interruption : Interruption) :
    Barren (interrupt interruption : Parser α) :=
  ⟨fun _ _ => ⟨_, _, rfl⟩⟩

instance bind_barren (parser : Parser α) (next : α → Parser β) [barren : Barren parser] :
    Barren (parser >>= next) where
  barren found ends := by
    obtain ⟨_, _, same⟩ := barren.barren found ends
    rw [bind_apply, same]
    exact ⟨_, _, rfl⟩

end Parser

end Marginalia
