import Marginalia.Proofs.Parser.Place
import Marginalia.Proofs.Scan.Extent
import Marginalia.Parser.Repetition

/-!
# Repetitions come to an end

Parsers may be put together from the combinators in any way. As long as no part of such a parser
reads the end of the source as a token, its runs leave the cursor at a token, and a repetition of it
that goes on has come closer to the end of the source: so the loop of the repetition ends, and the
bound that it carries is not met. The induction is over how the parser is built; what it carries is
that a run goes forward and does not pass the end of the source.

The end of the source can be read as a token, though, and it is still the next token behind itself.
Reading it counts as consuming something each time, so that a repetition of it goes on forever.
-/

namespace Marginalia

open Marginalia.Parser

variable {α β : Type}

/-! ## Parsers built from combinators -/

/-- The parser is put together from the combinators, and the tests of the tokens it reads are of an
allowed sort. -/
inductive Parser.Built (allowed : (Token → Bool) → Prop) : {α : Type} → Parser α → Prop where
  | pure {α : Type} (value : α) : Built allowed (pure value : Parser α)
  | bind {α β : Type} {parser : Parser α} {next : α → Parser β} (first : Built allowed parser)
      (second : ∀ value, Built allowed (next value)) : Built allowed (parser >>= next)
  /-- What is read may depend on the input. -/
  | given {α : Type} {parser : Input → Parser α} (each : ∀ input, Built allowed (parser input)) :
      Built allowed fun input => parser input input
  | cursor : Built allowed cursor
  | peek : Built allowed peek
  | reject {α : Type} (error : ParseError) : Built allowed (reject error : Parser α)
  | interrupt {α : Type} (interruption : Interruption) :
      Built allowed (interrupt interruption : Parser α)
  | satisfy {property : Token → Bool} (allows : allowed property) (label : String) :
      Built allowed (satisfy property label)
  | whitespace : Built allowed whitespace
  | trackNewline {α : Type} {parser : Parser α} (inner : Built allowed parser) :
      Built allowed (trackNewline parser)
  | withReference {α : Type} {parser : Parser α} (inner : Built allowed parser) :
      Built allowed (withReference parser)
  | attempt {α : Type} {parser : Parser α} (inner : Built allowed parser) :
      Built allowed (attempt parser)
  | lookAhead {α : Type} {parser : Parser α} (inner : Built allowed parser) :
      Built allowed (lookAhead parser)
  | optional {α : Type} {parser : Parser α} (inner : Built allowed parser) :
      Built allowed (optional parser)
  | choiceAfter {α : Type} (label : Option String) (expected : List String)
      {alternatives : List (Parser α)}
      (each : ∀ alternative ∈ alternatives, Built allowed alternative) :
      Built allowed (choiceAfter label expected alternatives)
  | expecting {α : Type} (label : String) {parser : Parser α} (inner : Built allowed parser) :
      Built allowed (expecting label parser)
  | values {α : Type} {parser : Parser (Option α)} (inner : Built allowed parser) :
      Built allowed (values parser)
  | separated {α : Type} {close : TokenKind} (allows : allowed (·.kind == close)) {item : Parser α}
      (inner : Built allowed item) (label : String) : Built allowed (separated close item label)

/-- A cursor that parsers of that sort lead to when they are run one after another, with any
references of indentation. -/
inductive Input.Reachable (allowed : (Token → Bool) → Prop) (input : Input) : Cursor → Prop where
  | start : Reachable allowed input .start
  | run {cursor : Cursor} (earlier : Reachable allowed input cursor) {α : Type} {parser : Parser α}
      (built : Built allowed parser) : Reachable allowed input (parser input cursor).cursor
  | reindent {cursor : Cursor} (earlier : Reachable allowed input cursor) (levels : List Nat) :
      Reachable allowed input { cursor with indentation := levels }

/-- The test does not hold of the end of a source. -/
def Parser.Solid (property : Token → Bool) : Prop := ∀ span, property ⟨.eof, [], span⟩ = false

namespace Parser.Built

variable {allowed : (Token → Bool) → Prop} {parser : Parser α}

/-- Passing over blanks and comments on both sides of what is built. -/
theorem padded (inner : Built allowed parser) : Built allowed (padded parser) :=
  .bind .whitespace fun _ => .bind inner fun _ => .bind .whitespace fun _ => .pure _

end Parser.Built

/-! ## Runs go forward -/

/-- A run that began at a cursor leaves one at a token, where no less of the source has been
consumed. -/
structure Input.Advances (input : Input) (start stop : Cursor) : Prop where
  /-- The cursor that is left is at a token. -/
  place : input.At stop
  /-- No source is given back. -/
  offset : start.position.offset ≤ stop.position.offset

variable {input : Input} {start stop : Cursor}

/-- A cursor at a token may stay. -/
theorem Input.At.advances (place : input.At start) : input.Advances start start :=
  ⟨place, Nat.le_refl _⟩

/-- One run after another. -/
theorem Input.Advances.trans {middle : Cursor} (first : input.Advances start middle)
    (second : input.Advances middle stop) : input.Advances start stop :=
  ⟨second.place, Nat.le_trans first.offset second.offset⟩

/-- Whatever its runs end in, they go forward. -/
structure Parser.Advancing (parser : Parser α) : Prop where
  /-- A run from a token goes forward. -/
  advances {input : Input} (scanned : input.Scanned) {start : Cursor} (place : input.At start) :
    input.Advances start (parser input start).cursor

namespace Parser.Advancing

/-- A successful run goes forward. -/
theorem advances_done {parser : Parser α} (advancing : Advancing parser) (scanned : input.Scanned)
    (place : input.At start) {value : α} (run : parser input start = .done value stop) :
    input.Advances start stop := by
  have advances := advancing.advances scanned place
  rwa [run] at advances

/-- A run that leaves the cursor as it is. -/
theorem of_stays {parser : Parser α} (stays : ∀ input start, (parser input start).cursor = start) :
    Advancing parser where
  advances _ _ place := by
    rw [stays]
    exact place.advances

/-- A parser that leaves the cursor of another one goes forward with it. -/
theorem congr {parser : Parser α} {other : Parser β} (advancing : Advancing parser)
    (same : ∀ input start, (other input start).cursor = start ∨
      (other input start).cursor = (parser input start).cursor) : Advancing other where
  advances {input} scanned start place := by
    rcases same input start with stays | same
    · rw [stays]
      exact place.advances
    · rw [same]
      exact advancing.advances scanned place

/-- A sequence goes forward if its parts do. -/
theorem bind {parser : Parser α} {next : α → Parser β} (first : Advancing parser)
    (second : ∀ value, Advancing (next value)) : Advancing (parser >>= next) where
  advances {input} scanned start place := by
    have earlier := first.advances scanned place
    rw [bind_apply]
    cases run : parser input start with
    | done value middle =>
      rw [run] at earlier
      exact earlier.trans ((second value).advances scanned earlier.place)
    | failed failure middle =>
      rw [run] at earlier
      exact earlier

/-- Reading a token goes forward, unless it is the end of the source. -/
theorem satisfy {property : Token → Bool} (solid : Solid property) (label : String) :
    Advancing (satisfy property label) where
  advances {input} scanned start place := by
    obtain ⟨before, next, after, stands⟩ := id place
    rw [satisfy_apply, stands.tokenAt?]
    dsimp only
    split
    · rename_i readable
      have notEnd : next.kind ≠ .eof := by
        intro ends
        have shape := scanned.shape stands.tokenAt?
        rw [ends] at shape
        have same : next = ⟨.eof, [], next.span⟩ := by
          rw [← ends, ← (show next.lexeme = [] from shape)]
        have holds := readable.2.2
        rw [same, solid] at holds
        cases holds
      obtain ⟨second, rest, -, stands', wide⟩ := stands.past scanned notEnd
      have starts : next.span.start.offset = start.position.offset := readable.1
      refine ⟨⟨_, _, _, stands'⟩, ?_⟩
      show start.position.offset ≤ next.span.stop.offset
      omega
    · exact place.advances

/-- Passing over blanks and comments goes forward. -/
theorem whitespace : Advancing whitespace where
  advances {input} scanned start place := by
    obtain ⟨before, next, after, stands⟩ := place
    obtain ⟨comments, stop, _, _, _, run, stands', -, -, -, offset⟩ := stands.whitespace scanned
    rw [run]
    exact ⟨⟨_, _, _, stands'⟩, offset⟩

/-- Another reference of indentation leaves a parser going forward. -/
theorem withReference {parser : Parser α} (advancing : Advancing parser) :
    Advancing (withReference parser) where
  advances {input} scanned start place := by
    have inner := advancing.advances scanned
      (place.reindent (start.position.column :: start.indentation))
    unfold Parser.withReference
    split <;> rename_i run <;> rw [run] at inner <;> exact ⟨inner.place.reindent _, inner.offset⟩

/-- Telling a mismatch leaves the cursor as it is. -/
theorem fail_cursor (expected : List String) (input : Input) (start : Cursor) :
    (fail expected input start : Outcome α).cursor = start := by
  rw [fail_apply]
  split <;> rfl

/-- Telling of a line break goes forward as the parser does. -/
theorem trackNewline {parser : Parser α} (advancing : Advancing parser) :
    Advancing (trackNewline parser) := by
  refine advancing.congr fun input start => .inr ?_
  unfold Parser.trackNewline
  split <;> rename_i run <;> rw [run] <;> rfl

/-- Trying a parser goes forward as it does, or stays. -/
theorem attempt {parser : Parser α} (advancing : Advancing parser) :
    Advancing (attempt parser) := by
  refine advancing.congr fun input start => ?_
  unfold Parser.attempt
  split
  · exact .inl rfl
  · exact .inr rfl

/-- Looking ahead stays. -/
theorem lookAhead (parser : Parser α) : Advancing (lookAhead parser) :=
  .of_stays fun input start => by
  unfold Parser.lookAhead
  split <;> rfl

/-- An optional value goes forward as the parser does, or stays. -/
theorem optional {parser : Parser α} (advancing : Advancing parser) :
    Advancing (optional parser) := by
  refine advancing.congr fun input start => ?_
  unfold Parser.optional
  split
  · rename_i run
    exact .inr (by rw [run]; rfl)
  · rename_i run
    split
    · exact .inr (by rw [run]; rfl)
    · exact .inl rfl
  · rename_i run
    exact .inr (by rw [run]; rfl)

/-- Another label leaves a parser going forward. -/
theorem expecting {parser : Parser α} (label : String) (advancing : Advancing parser) :
    Advancing (expecting label parser) := by
  refine advancing.congr fun input start => .inr ?_
  unfold Parser.expecting
  split
  · rename_i run
    rw [run]
    split
    · rfl
    · exact fail_cursor _ _ _
  · rfl

/-- A choice goes forward if each of its alternatives does. -/
theorem choiceAfter (label : Option String) (expected : List String)
    {alternatives : List (Parser α)} (each : ∀ alternative ∈ alternatives, Advancing alternative) :
    Advancing (choiceAfter label expected alternatives) where
  advances {input} scanned start place := by
    induction alternatives generalizing expected with
    | nil => exact (of_stays (fail_cursor _)).advances scanned place
    | cons alternative others ih =>
      obtain ⟨first, rest⟩ := List.forall_mem_cons.mp each
      have earlier := first.advances scanned place
      simp only [Parser.choiceAfter]
      split
      · rename_i run
        rw [run] at earlier
        split
        · exact earlier
        · exact ih _ rest
      · exact earlier

/-- Values go forward as the parser does that gives them, under every bound. -/
theorem valuesUpTo {parser : Parser (Option α)} (advancing : Advancing parser) (bound : Nat) :
    Advancing (valuesUpTo parser bound) := by
  induction bound with
  | zero => exact .of_stays fun _ _ => rfl
  | succ bound ih =>
    have stays (value : List α) : Advancing (Pure.pure value : Parser (List α)) :=
      .of_stays fun _ _ => rfl
    unfold Parser.valuesUpTo
    refine .bind (.of_stays fun _ _ => rfl) fun before => .bind advancing.optional fun found => ?_
    split
    · refine .bind (.of_stays fun _ _ => rfl) fun behind => ?_
      split
      · exact .bind ih fun _ => stays _
      · exact stays _
    · exact stays _

/-- What depends on the input goes forward if it does with every input. -/
theorem given {parser : Input → Parser α} (each : ∀ input, Advancing (parser input)) :
    Advancing fun input => parser input input where
  advances {input} scanned _ place := (each input).advances scanned place

/-- Values go forward as the parser does that gives them. -/
theorem values {parser : Parser (Option α)} (advancing : Advancing parser) :
    Advancing (values parser) := by
  unfold Parser.values
  exact .given fun input => advancing.valuesUpTo input.repetitionLimit

/-- Looking for a property of the next token stays. -/
theorem peekThat (property : Token → Bool) : Advancing (peekThat property) :=
  .of_stays fun input start => by
  rw [peekThat_apply]
  split <;> rfl

/-- Items go forward as each of them does, under every bound. -/
theorem itemsUpTo {item : Parser α} (advancing : Advancing item) {close : TokenKind}
    (solid : Solid (·.kind == close)) (label : String) (bound : Nat) (before : Comments) :
    Advancing (itemsUpTo close item label bound before) := by
  induction bound generalizing before with
  | zero => exact .of_stays fun _ _ => rfl
  | succ bound ih =>
    unfold Parser.itemsUpTo
    refine .bind advancing fun value => .bind whitespace fun after =>
      .bind (peekThat _) fun further => ?_
    split
    · refine .bind (.satisfy (fun _ => rfl) _) fun _ => .bind whitespace fun next =>
        .bind (ih next) fun _ => ?_
      exact .of_stays fun _ _ => rfl
    · exact .bind (.satisfy solid _) fun _ => .of_stays fun _ _ => rfl

/-- A sequence goes forward as its items do, if the end of the source does not close it. -/
theorem separated {item : Parser α} (advancing : Advancing item) {close : TokenKind}
    (solid : Solid (·.kind == close)) (label : String) :
    Advancing (separated close item label) := by
  unfold Parser.separated
  refine .bind whitespace fun before => .bind (peekThat _) fun closes => ?_
  split
  · exact .bind (.satisfy solid _) fun _ => .of_stays fun _ _ => rfl
  · refine .bind (.given fun input => ?_) fun items => .of_stays fun _ _ => rfl
    exact advancing.itemsUpTo solid label _ before

end Parser.Advancing

/-- A parser that is built from combinators and does not read the end of the source goes forward. -/
theorem Parser.Built.advancing {parser : Parser α} (built : Built Solid parser) :
    Advancing parser := by
  induction built with
  | pure | cursor | reject | interrupt => exact .of_stays fun _ _ => rfl
  | bind _ _ first second => exact .bind first second
  | given _ each => exact .given each
  | peek =>
    refine .of_stays fun input start => ?_
    rw [peek_apply]
    split <;> rfl
  | satisfy solid label => exact .satisfy solid label
  | whitespace => exact .whitespace
  | trackNewline _ inner => exact inner.trackNewline
  | withReference _ inner => exact inner.withReference
  | attempt _ inner => exact inner.attempt
  | @lookAhead _ parser => exact .lookAhead parser
  | optional _ inner => exact inner.optional
  | choiceAfter label expected _ each => exact .choiceAfter label expected each
  | expecting label _ inner => exact .expecting label inner
  | values _ inner => exact inner.values
  | separated solid _ label inner => exact inner.separated solid label

/-- Every cursor that such parsers lead to is at a token. -/
theorem Input.Reachable.at {cursor : Cursor} (scanned : input.Scanned)
    (reachable : input.Reachable Solid cursor) : input.At cursor := by
  induction reachable with
  | start => exact scanned.at_start
  | run _ built place => exact (built.advancing.advances scanned place).place
  | reindent _ levels place => exact place.reindent levels

/-- A cursor at a token has consumed no more than the source. -/
theorem Input.At.offset_le (place : input.At start) (scanned : input.Scanned) :
    start.position.offset ≤ input.source.length := by
  obtain ⟨before, next, after, stands⟩ := place
  have upper := (stands.bounds scanned).2
  have inside : next ∈ input.tokens.toList := stands.tokens ▸ List.mem_append_right _ (.head _)
  have stop := (Scan.Divides.stretches scanned [] rfl next inside).2
  rw [List.nil_append] at stop
  cases stands.ordered scanned with
  | cons _ wide _ _ => omega

/-! ## The loop of a repetition -/

/-- One iteration of a repetition after which it goes on: there is a value, and something was
consumed. -/
def Continues (item : Parser (Option α)) (input : Input) (start next : Cursor) : Prop :=
  ∃ value, optional item input start = .done (some (some value)) next ∧ next.movedFrom start = true

/-- The loop of a repetition ends in an outcome, after some iterations. -/
inductive Repeats (item : Parser (Option α)) (input : Input) :
    Cursor → Outcome (List α) → Prop where
  /-- There is no value, since nothing matches or what matches has none. -/
  | ends {start stop : Cursor} {found : Option (Option α)}
      (run : optional item input start = .done found stop) (absent : found.join = none) :
      Repeats item input start (.done [] stop)
  /-- There is a last value, with nothing consumed. -/
  | stays {start stop : Cursor} {value : α}
      (run : optional item input start = .done (some (some value)) stop)
      (same : stop.movedFrom start = false) : Repeats item input start (.done [value] stop)
  /-- What is repeated fails. -/
  | fails {start stop : Cursor} {failure : Failure}
      (run : optional item input start = .failed failure stop) :
      Repeats item input start (.failed failure stop)
  /-- There is a value before the others. -/
  | goesOn {start next stop : Cursor} {value : α} {rest : List α}
      (run : optional item input start = .done (some (some value)) next)
      (moved : next.movedFrom start = true) (further : Repeats item input next (.done rest stop)) :
      Repeats item input start (.done (value :: rest) stop)
  /-- What is repeated fails in the end. -/
  | breaks {start next stop : Cursor} {value : α} {failure : Failure}
      (run : optional item input start = .done (some (some value)) next)
      (moved : next.movedFrom start = true)
      (further : Repeats item input next (.failed failure stop)) :
      Repeats item input start (.failed failure stop)

section Loop

variable {item : Parser (Option α)}

/-- An iteration that goes on leaves no more tokens and less of the source to be read. -/
theorem Continues.closer {next : Cursor} (continues : Continues item input start next)
    (advancing : Advancing item) (scanned : input.Scanned) (place : input.At start) :
    input.tokens.size - next.index ≤ input.tokens.size - start.index ∧
    input.source.length - next.position.offset < input.source.length - start.position.offset := by
  obtain ⟨value, run, moved⟩ := continues
  have advances := advancing.optional.advances_done scanned place run
  have inside : next.position.offset ≤ input.source.length := advances.place.offset_le scanned
  have forward := advances.offset
  obtain ⟨_, _, _, stands⟩ := place
  obtain ⟨_, _, _, stands'⟩ := advances.place
  have index := stands.index_le scanned stands' forward
  have differs := (stands.movedFrom_iff scanned stands').mp moved
  omega

/-- Under a bound that exceeds what is ahead, the values are those of the loop. -/
theorem valuesUpTo_repeats (advancing : Advancing item) (scanned : input.Scanned) {bound : Nat}
    (place : input.At start) (enough : input.ahead start < bound) :
    Repeats item input start (valuesUpTo item bound input start) := by
  induction bound generalizing start with
  | zero => omega
  | succ bound ih =>
    -- The first cursor is told without moving, so the run begins with the optional value.
    show Repeats item input start ((Parser.optional item >>= _) input start)
    rw [bind_apply]
    cases run : optional item input start with
    | failed failure stop => exact .fails run
    | done found next =>
      have advances := advancing.optional.advances_done scanned place run
      match found with
      | none => exact .ends run rfl
      | some none => exact .ends run rfl
      | some (some value) =>
        show Repeats item input start
          ((if next.movedFrom start = true then _ else _ : Parser (List α)) input next)
        by_cases moved : next.movedFrom start = true
        · rw [if_pos moved, bind_apply]
          obtain ⟨_, _, _, stands⟩ := id place
          obtain ⟨_, _, _, stands'⟩ := advances.place
          have less : input.ahead next < input.ahead start :=
            stands.ahead_lt scanned stands' advances.offset moved
          have further := ih advances.place (by omega)
          generalize valuesUpTo item bound input next = outcome at further ⊢
          cases outcome with
          | done rest stop => exact .goesOn run moved further
          | failed failure stop => exact .breaks run moved further
        · rw [if_neg moved]
          exact .stays run (by simpa using moved)

/-- From wherever a repetition begins, its values are those of its loop. -/
theorem values_repeats (advancing : Advancing item) (scanned : input.Scanned)
    (place : input.At start) : Repeats item input start (values item input start) := by
  refine valuesUpTo_repeats advancing scanned place (Nat.lt_of_lt_of_le (input.ahead_lt start) ?_)
  unfold Input.repetitionLimit
  omega

end Loop

/-! ## Terminating parsers -/

/-- No run from a cursor that is reached without reading the end of the source meets a bound. -/
def Input.Terminates (input : Input) (parser : Parser α) : Prop :=
  ∀ start, input.Reachable Solid start →
    ∀ stop, parser input start ≠ .failed (.interrupted .exhausted) stop

/-- Reading a token meets no bound. -/
theorem Parser.satisfy_ne_exhausted (property : Token → Bool) (label : String)
    (input : Input) (start stop : Cursor) :
    satisfy property label input start ≠ .failed (.interrupted .exhausted) stop := by
  rw [satisfy_apply]
  split
  · split <;> simp
  · simp

namespace Input.Terminates

/-- A sequence terminates if its parts do. -/
theorem bind {parser : Parser α} {next : α → Parser β} (built : Built Solid parser)
    (first : input.Terminates parser) (second : ∀ value, input.Terminates (next value)) :
    input.Terminates (parser >>= next) := by
  intro start reachable stop
  rw [bind_apply]
  have reached := Reachable.run reachable built
  cases run : parser input start with
  | done value middle =>
    rw [run] at reached
    exact second value middle reached stop
  | failed failure middle =>
    have ends := first start reachable stop
    rw [run] at ends
    exact fun same => ends (by cases same; rfl)

/-- Reading a token terminates. -/
theorem satisfy (property : Token → Bool) (label : String) :
    input.Terminates (satisfy property label) :=
  fun start _ => satisfy_ne_exhausted property label input start

/-- Passing over blanks and comments terminates. -/
theorem whitespace : input.Terminates whitespace := by
  intro start _ stop
  unfold Parser.whitespace
  dsimp only
  split <;> simp

/-- An optional value terminates as the parser does. -/
theorem optional {parser : Parser α} (terminates : input.Terminates parser) :
    input.Terminates (optional parser) := by
  intro start reachable stop
  have ends := terminates start reachable stop
  unfold Parser.optional
  split
  · simp
  · split <;> simp
  · rename_i run
    rw [run] at ends
    exact fun same => ends (by cases same; rfl)

/-- The loop of a repetition of a terminating parser does not end in that a bound is met. -/
theorem repeats {item : Parser (Option α)} (terminates : input.Terminates item)
    (built : Built Solid item) (reachable : input.Reachable Solid start)
    {outcome : Outcome (List α)} (loop : Repeats item input start outcome) (stop : Cursor) :
    outcome ≠ .failed (.interrupted .exhausted) stop := by
  induction loop with
  | ends | stays | goesOn => simp
  | @fails start stop' failure run =>
    rintro same
    exact terminates.optional start reachable stop (run.trans (by cases same; rfl))
  | @breaks start next _ _ _ run _ _ ih =>
    have reached := Reachable.run reachable (.optional built)
    rw [run] at reached
    exact ih reached

end Input.Terminates

/-! ## Repetitions -/

/-- How a parser is repeated from a cursor on. -/
structure Input.Repetition (input : Input) (item : Parser (Option α)) (cursor : Cursor) : Prop where
  /-- The end of the source is still to be read. -/
  unread : ∃ token ∈ input.tokens.toList.drop cursor.index, token.kind = .eof
  /-- An iteration that goes on leaves no more tokens and less of the source to be read. -/
  closer {next : Cursor} (continues : Continues item input cursor next) :
    input.tokens.size - next.index ≤ input.tokens.size - cursor.index ∧
      input.source.length - next.position.offset < input.source.length - cursor.position.offset
  /-- The loop ends, with the outcome of the repetition. -/
  loop : Repeats item input cursor (values item input cursor)
  /-- The repetition does not meet its bound. -/
  finishes (stop : Cursor) : values item input cursor ≠ .failed (.interrupted .exhausted) stop
  /-- Neither does one that needs a first value. -/
  finishesBehind (stop : Cursor) :
    (do return (← item, ← values item)) input cursor ≠ .failed (.interrupted .exhausted) stop

/-- Wherever parsers have led that are built from combinators and read no end of the source, a
terminating parser of that sort can be repeated. -/
theorem Input.Terminates.repetition {item : Parser (Option α)} (terminates : input.Terminates item)
    (built : Built Solid item) (scanned : input.Scanned) {cursor : Cursor}
    (reachable : input.Reachable Solid cursor) : input.Repetition item cursor := by
  have repeated : input.Terminates (values item) := fun start reached =>
    terminates.repeats built reached (values_repeats built.advancing scanned (reached.at scanned))
  have behind : input.Terminates (do return (← item, ← values item)) :=
    .bind built terminates fun _ => .bind (.values built) repeated fun _ _ _ _ => nofun
  have place := reachable.at scanned
  exact {
    unread := place.unread scanned
    closer := fun continues => continues.closer built.advancing scanned place
    loop := values_repeats built.advancing scanned place
    finishes := repeated cursor reachable
    finishesBehind := behind cursor reachable }

/-- Repetitions end. Wherever parsers have led that are built from combinators and read no end of a
source, the end is still to be read, and a terminating parser of that sort can be repeated: each
iteration that goes on comes closer to the end, and the repetition is over after finitely many of
them. -/
theorem repetition_ends {source : Text} (made : Input.ofSource? source = .ok input)
    {item : Parser (Option α)} (built : Built Solid item) (terminates : input.Terminates item)
    {cursor : Cursor} (reachable : input.Reachable Solid cursor) :
    input.Repetition item cursor := by
  have ⟨same, scan⟩ := Input.ofSource?_eq_ok.mp made
  exact terminates.repetition built (.of_scan same scan) reachable

/-- Behind a first name, names with blanks and comments behind them are repeated up to the end of
the source. -/
theorem names_repetition_ends :
    ∃ input, Input.ofSource? "a b -- c\nd" = .ok input ∧
      ∃ cursor, input.Reachable Solid cursor ∧ cursor.index = 1 ∧
      input.Repetition (some <$> padded (token .lowerIdentifier "a name")) cursor := by
  have behind : (Input.ofSource? "a b -- c\nd").toOption.map (fun input =>
      (padded (token .lowerIdentifier "a name") input .start).cursor.index) =
        some 1 := by decide +kernel
  obtain ⟨input, made, index⟩ := ok_of_toOption_map behind
  have name : Built Solid (token .lowerIdentifier "a name") := .satisfy (fun _ => rfl) _
  have built : Built Solid (some <$> padded (token .lowerIdentifier "a name")) :=
    .bind (.padded name) fun _ => .pure _
  have terminates : input.Terminates (some <$> padded (token .lowerIdentifier "a name")) :=
    .bind (.padded name) (.bind .whitespace .whitespace fun _ => .bind name (.satisfy _ _) fun _ =>
      .bind .whitespace .whitespace fun _ _ _ _ => nofun) fun _ _ _ _ => nofun
  have reachable :
      input.Reachable Solid (padded (token .lowerIdentifier "a name") input .start).cursor :=
    .run .start (.padded name)
  exact ⟨input, made, _, reachable, index, repetition_ends made built terminates reachable⟩

/-! ## Reading the end of the source -/

/-- The cursor is at the end of the source, or behind it. -/
structure Input.AtEnd (input : Input) (cursor : Cursor) (token : Token) : Prop where
  /-- The token is the next one. -/
  found : input.tokenAt? cursor.index = some token
  /-- It is the end of the source. -/
  ends : token.kind = .eof
  /-- No blanks stand before it. -/
  starts : StartsAt token cursor

section AtEnd

variable {token : Token} {property : Token → Bool}

/-- Behind the end of the source stands the end again. -/
theorem Input.AtEnd.past (atEnd : input.AtEnd start token) (scanned : input.Scanned) :
    input.AtEnd (Parser.past token start) token := by
  obtain ⟨inner, stop, closed, solid⟩ := Scan.Divides.closed scanned
  obtain rfl : token = ⟨.eof, [], ⟨stop, stop⟩⟩ := by
    have member := Input.Scanned.mem_of_tokenAt? atEnd.found
    rw [closed, List.mem_append, List.mem_singleton] at member
    exact member.resolve_left fun before => solid token before atEnd.ends
  have behind : input.tokens.size ≤ start.index + 1 := by
    by_contra before
    have inside : start.index < inner.length := by
      rw [← Array.length_toList, closed, List.length_append, List.length_singleton] at before
      omega
    have found := atEnd.found
    rw [tokenAt?, ← Array.getElem?_toList, closed, List.getElem?_append_left inside,
      List.getElem?_eq_getElem inside] at found
    exact solid _ (List.getElem_mem inside) (congrArg Token.kind (Option.some.inj found))
  refine ⟨?_, rfl, rfl⟩
  show input.tokenAt? (start.index + 1) = _
  rw [tokenAt?, Array.getElem?_eq_none behind, ← Array.getLast?_toList, closed,
    List.getLast?_concat]
  rfl

/-- At the end of the source, a parser that reads it goes on being repeated. -/
theorem Input.AtEnd.continues (atEnd : input.AtEnd start token)
    (holds : property token = true) (label : String) :
    optional (some <$> satisfy property label) input start = .done (some (some token))
      (Parser.past token start) ∧ (Parser.past token start).movedFrom start = true := by
  have readable : Readable property token start :=
    ⟨atEnd.starts, by rw [Token.isComment, atEnd.ends]; rfl, holds⟩
  have run : satisfy property label input start = .done token (Parser.past token start) := by
    rw [satisfy_apply, atEnd.found]
    exact if_pos readable
  have mapped : (some <$> satisfy property label) input start =
        .done (some token) (Parser.past token start) :=
    bind_done.mpr ⟨token, _, run, rfl⟩
  refine ⟨?_, by simp [Cursor.movedFrom, Parser.past]⟩
  unfold Parser.optional
  rw [mapped]

/-- At the end of the source, the loop over a parser that reads it does not end. -/
theorem Input.AtEnd.not_repeats (atEnd : input.AtEnd start token) (scanned : input.Scanned)
    (holds : property token = true) (label : String) (outcome : Outcome (List Token)) :
    ¬ Repeats (some <$> satisfy property label) input start outcome := by
  intro loop
  induction loop with
  | ends run absent =>
    obtain ⟨same, -⟩ := atEnd.continues holds label
    obtain ⟨rfl, -⟩ := Outcome.done.inj (same.symm.trans run)
    cases absent
  | stays run same =>
    obtain ⟨again, moved⟩ := atEnd.continues holds label
    obtain ⟨-, rfl⟩ := Outcome.done.inj (again.symm.trans run)
    rw [moved] at same
    cases same
  | fails run => cases (atEnd.continues holds label).1.symm.trans run
  | goesOn run _ _ ih | breaks run _ _ ih =>
    obtain ⟨-, rfl⟩ := Outcome.done.inj ((atEnd.continues holds label).1.symm.trans run)
    exact ih (atEnd.past scanned)

end AtEnd

/-- Reading the end of the empty source leads behind it, though a run of this parser always ends,
and the loop of its repetition does not end. -/
theorem end_of_source_repeats :
    ∃ input, Input.ofSource? "" = .ok input ∧
      Built (fun _ => True) (some <$> token .eof "end of input") ∧ (∀ start stop,
      (some <$> token .eof "end of input") input start ≠ .failed (.interrupted .exhausted) stop) ∧
      (∃ cursor, input.Reachable (fun _ => True) cursor ∧
      input.tokens.toList.drop cursor.index = []) ∧
      ∀ outcome, ¬ Repeats (some <$> token .eof "end of input") input .start outcome := by
  have scan : Token.scan "" = .ok [⟨.eof, [], ⟨.start, .start⟩⟩] :=
    (Scan.scan_eq_ok_iff _ _).mpr (.done .start)
  have made : Input.ofSource? "" = .ok ⟨#[⟨.eof, [], ⟨.start, .start⟩⟩], ""⟩ :=
    Input.ofSource?_eq_ok.mpr ⟨rfl, scan⟩
  have built : Built (fun _ => True) (token .eof "end of input") := .satisfy trivial _
  have atEnd : Input.AtEnd ⟨#[⟨.eof, [], ⟨.start, .start⟩⟩], ""⟩ .start
        ⟨.eof, [], ⟨.start, .start⟩⟩ := ⟨rfl, rfl, rfl⟩
  refine ⟨_, made, .bind built fun _ => .pure _, fun start stop run => ?_,
    ⟨_, .run .start built, rfl⟩, atEnd.not_repeats (.of_scan rfl scan) rfl _⟩
  change (token .eof "end of input" >>= fun found => pure (some found)) _ start = _ at run
  rw [bind_apply] at run
  split at run
  · cases run
  · rename_i failed
    exact satisfy_ne_exhausted _ _ _ _ _ (failed.trans (by cases run; rfl))

end Marginalia
