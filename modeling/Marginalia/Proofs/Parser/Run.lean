import Marginalia.Parser.Repetition

/-!
# Runs of parsers

What the primitive parsers do from a cursor, as one equation each, and what a successful run of a
combinator is made of. Later statements about parsers are proved from these and do not open the
definitions.
-/

namespace Marginalia.Parser

variable {α β : Type}

/-! ## Sequencing -/

/-- A value without reading. -/
@[simp]
theorem pure_apply (value : α) (input : Input) (cursor : Cursor) :
    (pure value : Parser α) input cursor = .done value cursor := rfl

/-- One parser after another. -/
theorem bind_apply (parser : Parser α) (next : α → Parser β) (input : Input) (cursor : Cursor) :
    (parser >>= next) input cursor =
      match parser input cursor with
      | .done value after => next value input after
      | .failed failure after => .failed failure after := rfl

/-- A sequence succeeds when both of its parts do. -/
theorem bind_done {parser : Parser α} {next : α → Parser β} {input : Input}
    {start stop : Cursor} {result : β} :
    (parser >>= next) input start = .done result stop ↔ ∃ value middle,
      parser input start = .done value middle ∧ next value input middle = .done result stop := by
  rw [bind_apply]
  cases parser input start with
  | done value middle =>
    constructor
    · intro run
      exact ⟨value, middle, rfl, run⟩
    · rintro ⟨_, _, same, run⟩
      obtain ⟨rfl, rfl⟩ := Outcome.done.inj same
      exact run
  | failed failure middle => simp

/-! ## Looking at the next token -/

/-- The next token. -/
theorem peek_apply (input : Input) (cursor : Cursor) :
    peek input cursor =
      match input.tokenAt? cursor.index with
      | some token => .done token cursor
      | none => .failed (.rejected (.noTokens cursor.position)) cursor := rfl

/-- The next token is told without reading. -/
theorem peek_done {input : Input} {start stop : Cursor} {token : Token}
    (run : peek input start = .done token stop) :
    input.tokenAt? start.index = some token ∧ stop = start := by
  rw [peek_apply] at run
  split at run
  · obtain ⟨rfl, rfl⟩ := Outcome.done.inj run
    exact ⟨by assumption, rfl⟩
  · cases run

/-- A failure at the next token. -/
theorem fail_apply (expected : List String) (input : Input) (cursor : Cursor) :
    (fail expected : Parser α) input cursor =
      match input.tokenAt? cursor.index with
      | some token => .failed (.rejected (.unexpected expected.eraseDups token)) cursor
      | none => .failed (.rejected (.noTokens cursor.position)) cursor := by
  rw [fail, bind_apply, peek_apply]
  cases input.tokenAt? cursor.index <;> rfl

/-- A failure is no success. -/
theorem fail_ne_done (expected : List String) (input : Input) (start stop : Cursor) (value : α) :
    fail expected input start ≠ .done value stop := by
  rw [fail_apply]
  cases input.tokenAt? start.index <;> simp

/-- The token starts where the source has been consumed to. -/
def StartsAt (token : Token) (cursor : Cursor) : Prop :=
  token.span.start.offset = cursor.position.offset

instance (token : Token) (cursor : Cursor) : Decidable (StartsAt token cursor) :=
  inferInstanceAs (Decidable (_ = _))

/-- Whether the next token is adjacent and has a property. -/
theorem peekThat_apply (property : Token → Bool) (input : Input) (cursor : Cursor) :
    peekThat property input cursor =
      match input.tokenAt? cursor.index with
      | some token => .done (decide (StartsAt token cursor) && property token) cursor
      | none => .failed (.rejected (.noTokens cursor.position)) cursor := by
  simp only [peekThat, isAdjacent, bind_apply, peek_apply]
  cases found : input.tokenAt? cursor.index with
  | none => rfl
  | some token =>
    simp only [found]
    rfl

/-- Examining the next token tells of the token at the cursor and does not move. -/
theorem peekThat_done {property : Token → Bool} {input : Input} {start stop : Cursor} {holds : Bool}
    (run : peekThat property input start = .done holds stop) :
    stop = start ∧ ∃ token, input.tokenAt? start.index = some token ∧
      holds = (decide (StartsAt token start) && property token) := by
  rw [peekThat_apply] at run
  split at run
  · rename_i token found
    obtain ⟨rfl, rfl⟩ := Outcome.done.inj run
    exact ⟨rfl, token, found, rfl⟩
  · cases run

/-- The token can be read at a cursor: it is adjacent, no comment, and has the property. -/
def Readable (property : Token → Bool) (token : Token) (cursor : Cursor) : Prop :=
  StartsAt token cursor ∧ token.isComment = false ∧ property token = true

instance (property : Token → Bool) (token : Token) (cursor : Cursor) :
    Decidable (Readable property token cursor) :=
  inferInstanceAs (Decidable (_ ∧ _ ∧ _))

/-- The cursor behind a token. -/
def past (token : Token) (cursor : Cursor) : Cursor :=
  { cursor with index := cursor.index + 1, position := token.span.stop }

/-- Reading a token with a property. -/
theorem satisfy_apply (property : Token → Bool) (label : String) (input : Input) (cursor : Cursor) :
    satisfy property label input cursor =
      match input.tokenAt? cursor.index with
      | some token =>
        if Readable property token cursor then .done token (past token cursor)
        else .failed (.rejected (.unexpected [label] token)) cursor
      | none => .failed (.rejected (.noTokens cursor.position)) cursor := by
  simp only [satisfy, isAdjacent, bind_apply, peek_apply]
  cases found : input.tokenAt? cursor.index with
  | none => rfl
  | some token =>
    simp only [found, position, pure_apply, Readable, StartsAt]
    have single : [label].eraseDups = [label] := by simp [List.eraseDups_cons]
    by_cases adjacent : token.span.start.offset = cursor.position.offset <;>
      by_cases comment : token.isComment = true <;>
        by_cases holds : property token = true <;>
          simp [adjacent, comment, holds, fail_apply, found, past, single]

/-- A token that is read stands at the cursor and has the property. -/
theorem satisfy_done {property : Token → Bool} {label : String} {input : Input}
    {start stop : Cursor} {token : Token}
    (run : satisfy property label input start = .done token stop) :
    input.tokenAt? start.index = some token ∧ Readable property token start ∧
    stop = past token start := by
  rw [satisfy_apply] at run
  split at run
  · rename_i found next
    split at run
    · rename_i readable
      obtain ⟨rfl, rfl⟩ := Outcome.done.inj run
      exact ⟨next, readable, rfl⟩
    · cases run
  · cases run

/-- The test for a kind and a spelling holds of the tokens that have both. -/
theorem isSpelled_iff {token : Token} {kind : TokenKind} {lexeme : Text} :
    (token.kind == kind && token.lexeme == lexeme) = true ↔ token.kind = kind ∧
    token.lexeme = lexeme := by
  rw [Bool.and_eq_true_iff, beq_iff_eq, beq_iff_eq]

/-- The end of the input is a test of the next token. -/
theorem eof_eq :
    eof = peekIs .eof >>= fun ends => if ends then pure () else fail ["end of input"] := by
  funext input cursor
  simp only [eof, peekIs, bind_apply, peek_apply, peekThat_apply, isAdjacent]
  cases found : input.tokenAt? cursor.index with
  | none => rfl
  | some token =>
    simp only [found, position, pure_apply, StartsAt]
    by_cases ends : token.kind = .eof <;>
      by_cases adjacent : token.span.start.offset = cursor.position.offset <;> simp [ends, adjacent]

/-- The end of the input is found where the next token is the end of the source and adjacent. -/
theorem eof_done {input : Input} {start stop : Cursor} (run : eof input start = .done () stop) :
    ∃ token, input.tokenAt? start.index = some token ∧ token.kind = .eof ∧ stop = start := by
  rw [eof_eq] at run
  obtain ⟨ends, middle, seen, further⟩ := bind_done.mp run
  obtain ⟨rfl, token, found, holds⟩ := peekThat_done seen
  cases ends with
  | false => exact absurd further (fail_ne_done _ _ _ _ _)
  | true =>
    have isEnd : token.kind = .eof := beq_iff_eq.mp (Bool.and_eq_true_iff.mp holds.symm).2
    exact ⟨token, found, isEnd, (Outcome.done.inj further).2.symm⟩

/-! ## Looking at the column -/

/-- The indentation is a test of the column. -/
theorem indented_apply (input : Input) (cursor : Cursor) :
    indented input cursor =
      if cursor.position.column ≤ cursor.reference then
        fail ["an indented line (past column " ++ toString cursor.reference ++ ")"] input cursor
      else .done () cursor := by
  simp only [indented, reference, Parser.cursor, position, bind_apply, pure_apply]
  split <;> rfl

/-- The alignment is a test of the column. -/
theorem aligned_apply (input : Input) (cursor : Cursor) :
    aligned input cursor =
      if cursor.position.column ≠ cursor.reference then
        fail ["a line aligned at column " ++ toString cursor.reference] input cursor
      else .done () cursor := by
  simp only [aligned, reference, Parser.cursor, position, bind_apply, pure_apply]
  split <;> rfl

/-- What is indented is past the reference. -/
theorem indented_done {input : Input} {start stop : Cursor} {value : Unit}
    (run : indented input start = .done value stop) :
    stop = start ∧ start.reference < start.position.column := by
  rw [indented_apply] at run
  split at run
  · exact absurd run (fail_ne_done _ _ _ _ _)
  · exact ⟨(Outcome.done.inj run).2.symm, by omega⟩

/-- What is aligned is at the reference. -/
theorem aligned_done {input : Input} {start stop : Cursor} {value : Unit}
    (run : aligned input start = .done value stop) :
    stop = start ∧ start.position.column = start.reference := by
  rw [aligned_apply] at run
  split at run
  · exact absurd run (fail_ne_done _ _ _ _ _)
  · exact ⟨(Outcome.done.inj run).2.symm, by omega⟩

/-! ## Successful runs of combinators -/

/-- Blanks and comments end at the first token that is no comment. -/
theorem whitespace_done {input : Input} {start stop : Cursor} {comments : Comments}
    (run : whitespace input start = .done comments stop) :
    ∃ next, (input.tokens[start.index + (input.commentsAt start.index).length]? <|> input.tokenAt?
      start.index) = some next ∧ comments = (input.commentsAt start.index).map Comment.ofToken ∧
      stop = ⟨start.index + (input.commentsAt start.index).length, next.span.start,
      start.indentation⟩ := by
  rw [whitespace] at run
  split at run
  · rename_i next found
    obtain ⟨rfl, rfl⟩ := Outcome.done.inj run
    exact ⟨next, found, rfl, rfl⟩
  · cases run

/-- An attempt succeeds as its parser does. -/
theorem attempt_done {parser : Parser α} {input : Input} {start stop : Cursor} {value : α} :
    attempt parser input start = .done value stop ↔ parser input start = .done value stop := by
  rw [attempt]
  cases parser input start with
  | done _ _ => rfl
  | failed failure after => cases failure <;> simp

/-- A lookahead succeeds as its parser does, but consumes nothing. -/
theorem lookAhead_done {parser : Parser α} {input : Input} {start stop : Cursor} {value : α}
    (run : lookAhead parser input start = .done value stop) :
    stop = start ∧ ∃ after, parser input start = .done value after := by
  rw [lookAhead] at run
  cases same : parser input start with
  | done other after =>
    rw [same] at run
    obtain ⟨rfl, rfl⟩ := Outcome.done.inj run
    exact ⟨rfl, after, rfl⟩
  | failed failure after =>
    rw [same] at run
    cases run

/-- An optional value is one that its parser gives, or there is none and nothing is consumed. -/
theorem optional_done {parser : Parser α} {input : Input} {start stop : Cursor} {value : Option α}
    (run : optional parser input start = .done value stop) :
    (∃ inner, value = some inner ∧ parser input start = .done inner stop) ∨
    (value = none ∧ stop = start) := by
  rw [optional] at run
  split at run
  · rename_i inner after same
    obtain ⟨rfl, rfl⟩ := Outcome.done.inj run
    exact .inl ⟨inner, rfl, same⟩
  · split at run
    · cases run
    · obtain ⟨rfl, rfl⟩ := Outcome.done.inj run
      exact .inr ⟨rfl, rfl⟩
  · cases run

/-- A choice succeeds as one of its alternatives does. -/
theorem choiceAfter_done {label : Option String} {expected : List String}
    {alternatives : List (Parser α)} {input : Input} {start stop : Cursor} {value : α}
    (run : choiceAfter label expected alternatives input start = .done value stop) :
    ∃ parser ∈ alternatives, parser input start = .done value stop := by
  induction alternatives generalizing expected with
  | nil => exact absurd run (fail_ne_done _ _ _ _ _)
  | cons alternative others ih =>
    simp only [choiceAfter] at run
    split at run
    · split at run
      · cases run
      · obtain ⟨parser, member, same⟩ := ih run
        exact ⟨parser, .tail _ member, same⟩
    · exact ⟨alternative, .head _, run⟩

/-- Replacing what is expected changes no success. -/
theorem expecting_done {label : String} {parser : Parser α} {input : Input} {start stop : Cursor}
    {value : α} (run : expecting label parser input start = .done value stop) :
    parser input start = .done value stop := by
  rw [expecting] at run
  split at run
  · split at run
    · cases run
    · exact absurd run (fail_ne_done _ _ _ _ _)
  · exact run

/-- A located value has the span between the cursors. -/
theorem located_done {parser : Parser α} {input : Input} {start stop : Cursor} {value : Located α}
    (run : located parser input start = .done value stop) :
    value.span = ⟨start.position, stop.position⟩ ∧ parser input start = .done value.value stop := by
  simp only [located, bind_done] at run
  obtain ⟨_, _, first, inner, middle, same, _, _, last, result⟩ := run
  obtain ⟨rfl, rfl⟩ := Outcome.done.inj first
  obtain ⟨rfl, rfl⟩ := Outcome.done.inj last
  obtain ⟨rfl, rfl⟩ := Outcome.done.inj result
  exact ⟨rfl, same⟩

/-- A value with its line break is the value of the parser. -/
theorem trackNewline_done {parser : Parser α} {input : Input} {start stop : Cursor}
    {value : α × Bool} (run : trackNewline parser input start = .done value stop) :
    parser input start = .done value.1 stop ∧
    value.2 = (input.source.slice start.position.offset stop.position.offset).hasNewline := by
  rw [trackNewline] at run
  split at run
  · rename_i inner after same
    obtain ⟨rfl, rfl⟩ := Outcome.done.inj run
    exact ⟨same, rfl⟩
  · cases run

/-- A parser with a reference succeeds as it does from the cursor with that reference. -/
theorem withReference_done {parser : Parser α} {input : Input} {start stop : Cursor} {value : α}
    (run : withReference parser input start = .done value stop) :
    ∃ after, parser input { start with indentation := start.position.column :: start.indentation } =
      .done value after ∧ stop = { after with indentation := start.indentation } := by
  rw [withReference] at run
  split at run
  · rename_i inner after same
    obtain ⟨rfl, rfl⟩ := Outcome.done.inj run
    exact ⟨after, same, rfl⟩
  · cases run

end Marginalia.Parser
