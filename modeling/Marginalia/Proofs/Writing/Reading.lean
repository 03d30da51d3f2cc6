import Marginalia.Proofs.Parser.Place
import Marginalia.Proofs.Parser.Refusal
import Marginalia.Proofs.Writing.Piece

/-!
# Reading what was written

Along a run over tokens on one line, what lies ahead is a list of pieces. A parser leads from what
lies ahead of it to what lies ahead behind it, or it refuses what lies ahead and leaves the cursor
where it is. There is one rule for each combinator.
-/

namespace Marginalia

open Marginalia.Parser

variable {α β γ : Type} {input : Input}

/-! ## What lies ahead -/

namespace Piece

/-- Where the first of the tokens begins, or the end of the source. -/
def front (position : Position) : List Piece → Position
  | [] => position
  | piece :: _ => piece.start position

/-- The first of the tokens, or the end of the source. -/
def next (position : Position) : List Piece → Token
  | [] => ⟨.eof, [], ⟨position, position⟩⟩
  | piece :: _ => piece.token position

/-- Seen from its beginning, the first piece is joined. -/
theorem tokens_joinFirst (position : Position) (pieces : List Piece) :
    tokens (front position pieces) (joinFirst pieces) = tokens position pieces := by
  cases pieces with
  | nil => rfl
  | cons piece rest => rfl

/-- A piece on one line moves the column to the right. -/
theorem column_advance {text : Text} (oneLine : Text.newline ∉ text) (position : Position) :
    (position.advance text).column = position.column + text.length := by
  induction text generalizing position with
  | nil => rfl
  | cons u rest ih =>
    obtain ⟨notBreak, further⟩ := List.ne_and_not_mem_of_not_mem_cons oneLine
    have step : (position.step u).column = position.column + 1 := by
      rw [Position.step, if_neg (Ne.symm notBreak)]
    have tail := ih further (position.step u)
    simp only [Position.advance, List.foldl_cons, List.length_cons] at tail ⊢
    omega

/-- A piece does not begin to the left of what it follows. -/
theorem column_start (position : Position) (piece : Piece) :
    position.column ≤ (piece.start position).column := by
  unfold start
  split
  · exact Nat.le_refl _
  · exact Nat.le_succ _

/-- A piece stops to the right of what it follows. -/
theorem Sound.column_stop {piece : Piece} (sound : piece.Sound) (position : Position) :
    position.column ≤ (piece.stop position).column := by
  have moved := piece.column_start position
  rw [stop, column_advance sound.oneLine]
  omega

end Piece

/-- The tokens ahead of a cursor are those of pieces on one line, and the cursor is not left of its
reference. -/
structure Input.Ahead (input : Input) (cursor : Cursor) (pieces : List Piece) : Prop where
  /-- The tokens ahead are those of the pieces. -/
  tokens : input.tokens.toList.drop cursor.index = Piece.tokens cursor.position pieces
  /-- The pieces can be written. -/
  sound : ∀ piece ∈ pieces, piece.Sound
  /-- The cursor is not left of its reference. -/
  reference : cursor.reference ≤ cursor.position.column
  /-- The source is one line. -/
  oneLine : input.source.hasNewline = false

namespace Input.Ahead

variable {cursor : Cursor} {pieces : List Piece}

/-- What lies ahead is as long as the tokens that are left. -/
theorem length (ahead : input.Ahead cursor pieces) :
    cursor.index + pieces.length + 1 = input.tokens.size := by
  have counted : ∀ (pieces : List Piece) (position : Position),
      (Piece.tokens position pieces).length = pieces.length + 1 := by
    intro pieces
    induction pieces with
    | nil => intro position; rfl
    | cons piece rest ih =>
      intro position
      rw [Piece.tokens, List.length_cons, ih, List.length_cons]
  have lengths := congrArg List.length ahead.tokens
  rw [List.length_drop, counted, Array.length_toList] at lengths
  omega

/-- The next token is that of the first piece, or the end of the source. -/
theorem tokenAt? (ahead : input.Ahead cursor pieces) :
    input.tokenAt? cursor.index = some (Piece.next cursor.position pieces) := by
  have found : input.tokens.toList[cursor.index]? = some (Piece.next cursor.position pieces) := by
    have first :
        (input.tokens.toList.drop cursor.index)[0]? = some (Piece.next cursor.position pieces) := by
      rw [ahead.tokens]
      cases pieces <;> rfl
    rwa [List.getElem?_drop, Nat.add_zero] at first
  rw [Input.tokenAt?, ← Array.getElem?_toList, found]
  rfl

/-- Behind the first piece the others lie ahead. -/
theorem past {piece : Piece} {rest : List Piece} (ahead : input.Ahead cursor (piece :: rest)) :
    input.Ahead (Parser.past (piece.token cursor.position) cursor) rest := by
  have sound := ahead.sound piece (.head _)
  have right := sound.column_stop cursor.position
  refine ⟨?_, fun other member => ahead.sound other (.tail _ member),
    Nat.le_trans ahead.reference right, ahead.oneLine⟩
  have split : input.tokens.toList.drop (cursor.index + 1) =
        (input.tokens.toList.drop cursor.index).tail := by
    rw [List.tail_drop]
  show input.tokens.toList.drop (cursor.index + 1) = Piece.tokens (piece.stop cursor.position) rest
  rw [split, ahead.tokens]
  rfl

/-- A first piece that is joined begins at the cursor. -/
theorem startsAt {piece : Piece} (joined : piece.joined = true) (cursor : Cursor) :
    StartsAt (piece.token cursor.position) cursor := by
  show (piece.start cursor.position).offset = cursor.position.offset
  rw [Piece.start, if_pos joined]

/-- A first piece that is not joined does not begin at the cursor. -/
theorem not_startsAt {piece : Piece} (loose : piece.joined = false) (cursor : Cursor) :
    ¬ StartsAt (piece.token cursor.position) cursor := by
  intro starts
  have offset : (piece.start cursor.position).offset = cursor.position.offset := starts
  rw [Piece.start, loose] at offset
  have moved := cursor.position.offset_step (.ofChar ' ')
  simp only [Bool.false_eq_true, if_false] at offset
  omega

end Input.Ahead

/-- The run came from one cursor to another, with the same references and not to the left, and
pieces lie ahead. -/
structure Input.Reaches (input : Input) (start stop : Cursor) (pieces : List Piece) : Prop where
  /-- The pieces lie ahead. -/
  ahead : input.Ahead stop pieces
  /-- The references are the same. -/
  indentation : stop.indentation = start.indentation
  /-- The run did not go to the left. -/
  column : start.position.column ≤ stop.position.column

/-- A run that stays reaches what lay ahead. -/
theorem Input.Ahead.stay {cursor : Cursor} {pieces : List Piece}
    (ahead : input.Ahead cursor pieces) : input.Reaches cursor cursor pieces :=
  ⟨ahead, rfl, Nat.le_refl _⟩

/-- One run after another reaches what the second one does. -/
theorem Input.Reaches.trans {first second third : Cursor} {middle last : List Piece}
    (reaches : input.Reaches first second middle) (further : input.Reaches second third last) :
    input.Reaches first third last :=
  ⟨further.ahead, further.indentation.trans reaches.indentation,
    Nat.le_trans reaches.column further.column⟩

/-! ## Judgements -/

/-- From what lies ahead the parser leads to what lies ahead behind it, with a value as
described. -/
def Leads (input : Input) (parser : Parser α) (before after : List Piece)
    (described : α → Prop) : Prop :=
  ∀ start, input.Ahead start before → ∃ value stop, parser input start = .done value stop ∧
    input.Reaches start stop after ∧ described value

/-- The parser gives a value without reading. -/
def Tells (input : Input) (parser : Parser α) (before : List Piece) (value : α) : Prop :=
  ∀ start, input.Ahead start before → parser input start = .done value start

/-- What lies ahead does not match, and the parser consumes nothing of it. -/
def Refuses (input : Input) (parser : Parser α) (before : List Piece) : Prop :=
  ∀ start, input.Ahead start before → ∃ error, parser input start = .failed (.rejected error) start

/-- What lies ahead does not match. -/
def Fails (input : Input) (parser : Parser α) (before : List Piece) : Prop :=
  ∀ start, input.Ahead start before →
    ∃ error stop, parser input start = .failed (.rejected error) stop

/-- The piece directly ahead, if there is one, does not have a property. -/
def Avoids (property : Piece → Bool) (before : List Piece) : Prop :=
  ∀ piece ∈ before.head?, piece.joined = true → property piece = false

section Sequences

variable {parser : Parser α} {next : α → Parser β} {before middle after : List Piece}
  {described : α → Prop} {others : β → Prop}

/-- One parser after another leads on from where the first one led. -/
theorem Leads.bind (leads : Leads input parser before middle described)
    (goesOn : ∀ value, described value → Leads input (next value) middle after others) :
    Leads input (parser >>= next) before after others := by
  intro start ahead
  obtain ⟨value, between, run, reaches, fits⟩ := leads start ahead
  obtain ⟨result, stop, further, reaches', fits'⟩ := goesOn value fits between reaches.ahead
  exact ⟨result, stop, bind_done.mpr ⟨value, between, run, further⟩, reaches.trans reaches', fits'⟩

/-- A value without reading is as described. -/
theorem Leads.pure {value : α} (fits : described value) :
    Leads input (pure value) before before described :=
  fun start ahead => ⟨value, start, rfl, ahead.stay, fits⟩

/-- What is described of a value may be said in other words. -/
theorem Leads.imp {described' : α → Prop} (leads : Leads input parser before after described)
    (fits : ∀ value, described value → described' value) :
    Leads input parser before after described' := by
  intro start ahead
  obtain ⟨value, stop, run, reaches, holds⟩ := leads start ahead
  exact ⟨value, stop, run, reaches, fits value holds⟩

/-- The place is told without reading. -/
theorem position_leads : Leads input position before before fun _ => True :=
  fun start ahead => ⟨start.position, start, rfl, ahead.stay, trivial⟩

/-- A sequence that begins with telling the place refuses what the others refuse. -/
theorem position_refuses {next : Position → Parser β}
    (refuses : ∀ place, Refuses input (next place) before) :
    Refuses input (position >>= next) before :=
  fun start ahead => refuses start.position start ahead

/-- After a value that is told without reading a sequence goes on with it. -/
theorem Tells.leads {value : α} (tells : Tells input parser before value)
    (goesOn : Leads input (next value) before after others) :
    Leads input (parser >>= next) before after others := by
  intro start ahead
  obtain ⟨result, stop, run, reaches, fits⟩ := goesOn start ahead
  exact ⟨result, stop, bind_done.mpr ⟨value, start, tells start ahead, run⟩, reaches, fits⟩

/-- After a value that is told without reading a sequence fails as what follows it. -/
theorem Tells.refuses {value : α} (tells : Tells input parser before value)
    (refuses : Refuses input (next value) before) : Refuses input (parser >>= next) before := by
  intro start ahead
  obtain ⟨error, run⟩ := refuses start ahead
  refine ⟨error, ?_⟩
  rw [bind_apply, tells start ahead]
  exact run

/-- A sequence refuses what its first parser refuses. -/
theorem Refuses.bind (refuses : Refuses input parser before) :
    Refuses input (parser >>= next) before :=
  fun start ahead => RefusesAt.bind (refuses start ahead)

/-- What is refused fails. -/
theorem Refuses.fails (refuses : Refuses input parser before) : Fails input parser before := by
  intro start ahead
  obtain ⟨error, run⟩ := refuses start ahead
  exact ⟨error, start, run⟩

/-- A sequence fails where its second parser does. -/
theorem Leads.fails (leads : Leads input parser before middle described)
    (fails : ∀ value, described value → Fails input (next value) middle) :
    Fails input (parser >>= next) before := by
  intro start ahead
  obtain ⟨value, between, run, reaches, fits⟩ := leads start ahead
  obtain ⟨error, stop, further⟩ := fails value fits between reaches.ahead
  refine ⟨error, stop, ?_⟩
  rw [bind_apply, run]
  exact further

/-- A sequence fails where its first parser does. -/
theorem Fails.bind (fails : Fails input parser before) : Fails input (parser >>= next) before := by
  intro start ahead
  obtain ⟨error, stop, run⟩ := fails start ahead
  refine ⟨error, stop, ?_⟩
  rw [bind_apply, run]

end Sequences

/-! ## Tokens and blanks -/

section Tokens

variable {piece : Piece} {before rest : List Piece} {property : Token → Bool} {label : String}

/-- A piece that is directly ahead and has the property is read. -/
theorem satisfy_leads (holds : ∀ token : Token, token.kind = piece.kind →
      token.lexeme = piece.lexeme → property token = true) :
    Leads input (satisfy property label) (Piece.joinFirst (piece :: rest)) rest fun token =>
      token.kind = piece.kind ∧ token.lexeme = piece.lexeme := by
  intro start ahead
  have sound := ahead.sound piece.join (.head _)
  have readable : Readable property (piece.join.token start.position) start :=
    ⟨Input.Ahead.startsAt rfl start, sound.isWord.1, holds _ rfl rfl⟩
  refine ⟨piece.join.token start.position, Parser.past (piece.join.token start.position) start, ?_,
    ⟨ahead.past, rfl, sound.column_stop start.position⟩, rfl, rfl⟩
  rw [satisfy_apply, ahead.tokenAt?]
  exact if_pos readable

/-- A token that is not directly ahead is refused. -/
theorem satisfy_refuses (atEnd : ∀ token : Token, token.kind = .eof → property token = false)
    (lacks : ∀ piece ∈ before.head?, piece.joined = true → ∀ token : Token,
      token.kind = piece.kind → token.lexeme = piece.lexeme → property token = false) :
    Refuses input (satisfy property label) before := by
  intro start ahead
  have unreadable : ¬ Readable property (Piece.next start.position before) start := by
    rintro ⟨starts, -, holds⟩
    cases before with
    | nil =>
      rw [atEnd _ rfl] at holds
      cases holds
    | cons piece rest =>
      by_cases joined : piece.joined = true
      · rw [lacks piece rfl joined _ rfl rfl] at holds
        cases holds
      · exact Input.Ahead.not_startsAt (by simpa using joined) start starts
  exact satisfy_refusesAt ahead.tokenAt? unreadable label

/-- A piece of a kind is read as a token of the kind. -/
theorem token_leads {kind : TokenKind} (isKind : piece.kind = kind) :
    Leads input (token kind label) (Piece.joinFirst (piece :: rest)) rest fun token =>
      token.lexeme = piece.lexeme :=
  (satisfy_leads fun token same _ => by rw [same, isKind, beq_self_eq_true]).imp
    fun _ same => same.2

/-- A piece of another kind is refused. -/
theorem token_refuses {kind : TokenKind} (notEnd : kind ≠ .eof)
    (avoids : Avoids (·.kind == kind) before) : Refuses input (token kind label) before := by
  apply satisfy_refuses
  · intro token isEnd
    rw [isEnd]
    exact beq_eq_false_iff_ne.mpr (Ne.symm notEnd)
  · intro piece first joined token sameKind _
    rw [sameKind]
    exact avoids piece first joined

/-- A piece with a spelling is read as a token with that spelling. -/
theorem spelled_leads {kind : TokenKind} {word : String} (isKind : piece.kind = kind)
    (isWord : piece.lexeme = word) :
    Leads input (spelled kind word) (Piece.joinFirst (piece :: rest)) rest fun _ => True := by
  refine (satisfy_leads fun token sameKind sameLexeme => ?_).imp fun _ _ => trivial
  rw [sameKind, isKind, sameLexeme, isWord]
  simp

/-- A piece with another spelling is refused. -/
theorem spelled_refuses {kind : TokenKind} {word : String} (notEnd : kind ≠ .eof) (avoids : Avoids
      (fun piece => piece.kind == kind && piece.lexeme == Text.ofString word) before) :
    Refuses input (spelled kind word) before := by
  apply satisfy_refuses
  · intro token isEnd
    rw [isEnd, beq_eq_false_iff_ne.mpr (Ne.symm notEnd)]
    rfl
  · intro piece first joined token sameKind sameLexeme
    rw [sameKind, sameLexeme]
    exact avoids piece first joined

/-- A piece that is directly ahead and has the property is told of. -/
theorem peekThat_tells_true (holds : ∀ token : Token, token.kind = piece.kind →
      token.lexeme = piece.lexeme → property token = true) :
    Tells input (peekThat property) (Piece.joinFirst (piece :: rest)) true := by
  intro start ahead
  rw [peekThat_apply, ahead.tokenAt?]
  have starts : StartsAt (Piece.next start.position (Piece.joinFirst (piece :: rest))) start :=
    Input.Ahead.startsAt rfl start
  have has : property (Piece.next start.position (Piece.joinFirst (piece :: rest))) = true :=
    holds _ rfl rfl
  simp only [starts, has, decide_true, Bool.and_self]

/-- No piece with the property is told of where none is directly ahead. -/
theorem peekThat_tells_false (atEnd : ∀ token : Token, token.kind = .eof → property token = false)
    (lacks : ∀ piece ∈ before.head?, piece.joined = true → ∀ token : Token,
      token.kind = piece.kind → token.lexeme = piece.lexeme → property token = false) :
    Tells input (peekThat property) before false := by
  intro start ahead
  rw [peekThat_apply, ahead.tokenAt?]
  have lacking : (decide (StartsAt (Piece.next start.position before) start) &&
      property (Piece.next start.position before)) = false := by
    cases before with
    | nil => rw [atEnd _ rfl, Bool.and_false]
    | cons piece rest =>
      by_cases joined : piece.joined = true
      · have none : property (Piece.next start.position (piece :: rest)) = false :=
          lacks piece rfl joined _ rfl rfl
        rw [none, Bool.and_false]
      · have apart : ¬ StartsAt (Piece.next start.position (piece :: rest)) start :=
          Input.Ahead.not_startsAt (by simpa using joined) start
        rw [decide_eq_false apart, Bool.false_and]
  simp only [lacking]

/-- A piece of a kind directly ahead is told of. -/
theorem peekIs_tells_true {kind : TokenKind} (isKind : piece.kind = kind) :
    Tells input (peekIs kind) (Piece.joinFirst (piece :: rest)) true :=
  peekThat_tells_true fun token same _ => by rw [same, isKind, beq_self_eq_true]

/-- Where no piece of a kind is directly ahead, none is told of. -/
theorem peekIs_tells_false {kind : TokenKind} (notEnd : kind ≠ .eof)
    (avoids : Avoids (·.kind == kind) before) : Tells input (peekIs kind) before false := by
  apply peekThat_tells_false
  · intro token isEnd
    rw [isEnd]
    exact beq_eq_false_iff_ne.mpr (Ne.symm notEnd)
  · intro piece first joined token sameKind _
    rw [sameKind]
    exact avoids piece first joined

/-- Blanks are passed over up to where the next piece begins. -/
theorem Input.Ahead.whitespace {start : Cursor} (ahead : input.Ahead start before) :
    Parser.whitespace input start = .done []
      { start with position := Piece.front start.position before } := by
  have split : input.tokens.toList = input.tokens.toList.take start.index ++
      ([] ++ Piece.next start.position before :: (Piece.tokens start.position before).tail) := by
    have first : Piece.tokens start.position before =
        Piece.next start.position before :: (Piece.tokens start.position before).tail := by
      cases before <;> rfl
    rw [List.nil_append, ← first, ← ahead.tokens, List.take_append_drop]
  have index : start.index = (input.tokens.toList.take start.index).length := by
    have length := ahead.length
    rw [List.length_take, Array.length_toList]
    omega
  have solid : (Piece.next start.position before).isComment = false := by
    cases before with
    | nil => rfl
    | cons piece rest => exact (ahead.sound piece (.head _)).isWord.1
  have run := whitespace_apply split index (by simp) solid
  rw [List.length_nil, Nat.add_zero, ← index] at run
  have place :
      (Piece.next start.position before).span.start = Piece.front start.position before := by
    cases before <;> rfl
  rw [place] at run
  exact run

/-- Where the next piece begins, it is directly ahead. -/
theorem Input.Ahead.reaches_front {start : Cursor} (ahead : input.Ahead start before) :
    input.Reaches start { start with position := Piece.front start.position before }
      (Piece.joinFirst before) := by
  have right : start.position.column ≤ (Piece.front start.position before).column := by
    cases before with
    | nil => exact Nat.le_refl _
    | cons piece rest => exact piece.column_start start.position
  refine ⟨⟨?_, ?_, Nat.le_trans ahead.reference right, ahead.oneLine⟩, rfl, right⟩
  · rw [Piece.tokens_joinFirst]
    exact ahead.tokens
  · intro piece member
    cases before with
    | nil => cases member
    | cons first rest =>
      cases member with
      | head =>
        have sound := ahead.sound first (.head _)
        exact ⟨sound.isLexeme, sound.isWord, sound.oneLine⟩
      | tail _ inRest => exact ahead.sound piece (.tail _ inRest)

/-- Blanks are passed over up to the next piece. -/
theorem whitespace_leads : Leads input whitespace before (Piece.joinFirst before) (· = []) :=
  fun _ ahead => ⟨[], _, ahead.whitespace, ahead.reaches_front, rfl⟩

/-- Where the next piece is directly ahead, there are no blanks. -/
theorem whitespace_tells : Tells input whitespace (Piece.joinFirst before) [] := by
  intro start ahead
  have stays : Piece.front start.position (Piece.joinFirst before) = start.position := by
    cases before <;> rfl
  rw [ahead.whitespace, stays]

end Tokens

/-! ## Combinators -/

section Combinators

variable {parser : Parser α} {before after : List Piece} {described : α → Prop} {label : String}

/-- A value between comments is read where none are. -/
theorem Leads.padded (leads : Leads input parser (Piece.joinFirst before) after described) :
    Leads input (padded parser) before (Piece.joinFirst after) fun found =>
      ∃ value, found = ⟨[], value, []⟩ ∧ described value := by
  apply whitespace_leads.bind
  rintro _ rfl
  apply leads.bind
  intro value fits
  apply whitespace_leads.bind
  rintro _ rfl
  exact .pure ⟨value, rfl, fits⟩

/-- An attempt leads as its parser does. -/
theorem Leads.attempt (leads : Leads input parser before after described) :
    Leads input (attempt parser) before after described := by
  intro start ahead
  obtain ⟨value, stop, run, reaches, fits⟩ := leads start ahead
  exact ⟨value, stop, attempt_done.mpr run, reaches, fits⟩

/-- An attempt that fails consumes nothing. -/
theorem Fails.attempt (fails : Fails input parser before) :
    Refuses input (attempt parser) before := by
  intro start ahead
  obtain ⟨error, stop, run⟩ := fails start ahead
  exact attempt_refusesAt run

/-- An optional value is read where it can be. -/
theorem Leads.optional (leads : Leads input parser before after described) :
    Leads input (optional parser) before after fun found => ∃ value, found = some value ∧
      described value := by
  intro start ahead
  obtain ⟨value, stop, run, reaches, fits⟩ := leads start ahead
  refine ⟨some value, stop, ?_, reaches, value, rfl, fits⟩
  rw [Parser.optional, run]

/-- Where a value is refused, there is no optional one. -/
theorem Refuses.optional (refuses : Refuses input parser before) :
    Tells input (optional parser) before none := by
  intro start ahead
  obtain ⟨error, run⟩ := refuses start ahead
  simp only [Parser.optional, run, start.not_movedFrom, Bool.false_eq_true, if_false]

/-- The first alternative is chosen where it leads on. -/
theorem Leads.choice_here {name : Option String} {expected : List String} {others : List (Parser α)}
    (leads : Leads input parser before after described) :
    Leads input (choiceAfter name expected (parser :: others)) before after described := by
  intro start ahead
  obtain ⟨value, stop, run, reaches, fits⟩ := leads start ahead
  refine ⟨value, stop, ?_, reaches, fits⟩
  simp only [choiceAfter, run]

/-- Where the first alternative refuses, one of the others is chosen. -/
theorem Leads.choice_later {name : Option String} {expected : List String}
    {others : List (Parser α)} (refuses : Refuses input parser before)
    (leads : ∀ expected, Leads input (choiceAfter name expected others) before after described) :
    Leads input (choiceAfter name expected (parser :: others)) before after described := by
  intro start ahead
  obtain ⟨expected', same⟩ := choiceAfter_later (refuses start ahead)
  obtain ⟨value, stop, further, reaches, fits⟩ := leads expected' start ahead
  exact ⟨value, stop, (same _ _).trans further, reaches, fits⟩

/-- Where all alternatives of a first part refuse, one of the others is chosen. -/
theorem Leads.choice_behind {name : Option String} {expected : List String}
    {first others : List (Parser α)}
    (refuses : ∀ alternative ∈ first, Refuses input alternative before)
    (leads : ∀ expected, Leads input (choiceAfter name expected others) before after described) :
    Leads input (choiceAfter name expected (first ++ others)) before after described := by
  induction first generalizing expected with
  | nil => exact leads expected
  | cons alternative more ih =>
    refine Leads.choice_later (refuses alternative (.head _)) fun _ => ?_
    exact ih fun other member => refuses other (.tail _ member)

/-- A failure is a refusal. -/
theorem fail_refuses (expected : List String) : Refuses input (fail expected : Parser α) before :=
  fun _ ahead => fail_refusesAt ahead.tokenAt? expected

/-- A choice refuses what all alternatives refuse. -/
theorem Refuses.choice {name : Option String} {expected : List String}
    {alternatives : List (Parser α)}
    (refuses : ∀ alternative ∈ alternatives, Refuses input alternative before) :
    Refuses input (choiceAfter name expected alternatives) before :=
  fun start ahead => choiceAfter_refusesAt ahead.tokenAt? fun alternative member =>
    refuses alternative member start ahead

/-- A choice fails where all alternatives do. -/
theorem Fails.choice {name : Option String} {expected : List String}
    {alternatives : List (Parser α)}
    (fails : ∀ alternative ∈ alternatives, Fails input alternative before) :
    Fails input (choiceAfter name expected alternatives) before := by
  induction alternatives generalizing expected with
  | nil => exact (fail_refuses _).fails
  | cons alternative others ih =>
    intro start ahead
    obtain ⟨error, stop, run⟩ := fails alternative (.head _) start ahead
    have further : Fails input (choiceAfter name (expected ++ error.expected) others) before :=
      ih fun other member => fails other (.tail _ member)
    by_cases moved : stop.movedFrom start = true
    · refine ⟨error, stop, ?_⟩
      simp only [choiceAfter, run, moved, if_true]
    · obtain ⟨error', stop', run'⟩ := further start ahead
      refine ⟨error', stop', ?_⟩
      simp only [choiceAfter, run, moved]
      exact run'

/-- A parser leads on whatever it is said to expect. -/
theorem Leads.expecting (leads : Leads input parser before after described) :
    Leads input (expecting label parser) before after described := by
  intro start ahead
  obtain ⟨value, stop, run, reaches, fits⟩ := leads start ahead
  refine ⟨value, stop, ?_, reaches, fits⟩
  rw [Parser.expecting, run]

/-- A parser refuses whatever it is said to expect. -/
theorem Refuses.expecting (refuses : Refuses input parser before) :
    Refuses input (expecting label parser) before := by
  intro start ahead
  obtain ⟨error, run⟩ := refuses start ahead
  have failing : Refuses input (fail [label] : Parser α) before := fail_refuses [label]
  obtain ⟨error', run'⟩ := failing start ahead
  refine ⟨error', ?_⟩
  simp only [Parser.expecting, run, start.not_movedFrom, Bool.false_eq_true, if_false]
  exact run'

/-- A parser fails whatever it is said to expect. -/
theorem Fails.expecting (fails : Fails input parser before) :
    Fails input (expecting label parser) before := by
  intro start ahead
  obtain ⟨error, stop, run⟩ := fails start ahead
  by_cases moved : stop.movedFrom start = true
  · refine ⟨error, stop, ?_⟩
    simp only [Parser.expecting, run, moved, if_true]
  · simp only [Parser.expecting, run, moved]
    cases next : input.tokenAt? stop.index with
    | none => exact ⟨_, stop, by simp only [fail_apply, next]; rfl⟩
    | some token => exact ⟨_, stop, by simp only [fail_apply, next]; rfl⟩

/-- A located value is read as the value. -/
theorem Leads.located (leads : Leads input parser before after described) :
    Leads input (located parser) before after fun found => described found.value := by
  intro start ahead
  obtain ⟨value, stop, run, reaches, fits⟩ := leads start ahead
  refine ⟨⟨⟨start.position, stop.position⟩, value⟩, stop, ?_, reaches, fits⟩
  simp only [Parser.located, bind_apply, position, run, pure_apply]

/-- A located value is refused where the value is. -/
theorem Refuses.located (refuses : Refuses input parser before) :
    Refuses input (located parser) before :=
  fun start ahead => RefusesAt.located (refuses start ahead)

/-- What is read on one line crosses no line break. -/
theorem Leads.trackNewline (leads : Leads input parser before after described) :
    Leads input (trackNewline parser) before after fun found => ∃ value, found = (value, false) ∧
      described value := by
  intro start ahead
  obtain ⟨value, stop, run, reaches, fits⟩ := leads start ahead
  have oneLine :
      (input.source.slice start.position.offset stop.position.offset).hasNewline = false := by
    have none := ahead.oneLine
    simp only [Text.hasNewline, List.contains_eq_mem, decide_eq_false_iff_not] at none ⊢
    exact fun member => none (List.mem_of_mem_drop (List.mem_of_mem_take member))
  refine ⟨(value, false), stop, ?_, reaches, value, rfl, fits⟩
  rw [Parser.trackNewline, run]
  simp only [oneLine]

/-- What is refused is refused with its line break. -/
theorem Refuses.trackNewline (refuses : Refuses input parser before) :
    Refuses input (trackNewline parser) before :=
  fun start ahead => RefusesAt.trackNewline (refuses start ahead)

/-- What fails does so with its line break. -/
theorem Fails.trackNewline (fails : Fails input parser before) :
    Fails input (trackNewline parser) before := by
  intro start ahead
  obtain ⟨error, stop, run⟩ := fails start ahead
  refine ⟨error, stop, ?_⟩
  rw [Parser.trackNewline, run]

/-- A lookahead refuses what its parser fails on. -/
theorem Fails.lookAhead (fails : Fails input parser before) :
    Refuses input (lookAhead parser) before := by
  intro start ahead
  obtain ⟨error, stop, run⟩ := fails start ahead
  refine ⟨error, ?_⟩
  rw [Parser.lookAhead, run]

/-- After a check a committed parser leads on. -/
theorem Leads.commitIf {check : Parser β} {checked : List Piece} {checks : β → Prop}
    (looks : Leads input check before checked checks)
    (leads : Leads input parser before after described) :
    Leads input (commitIf check parser) before after described := by
  intro start ahead
  obtain ⟨seen, _, look, -⟩ := looks start ahead
  obtain ⟨value, stop, run, reaches, fits⟩ := leads start ahead
  refine ⟨value, stop, ?_, reaches, fits⟩
  simp only [Parser.commitIf, bind_apply, Parser.lookAhead, look]
  exact run

end Combinators

end Marginalia
