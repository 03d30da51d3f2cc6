import Marginalia.Proofs.Cursor.Repetition
import Marginalia.Script

/-!
# Scripts come to an end

A script that needs no rule of the grammar and reads no end of the source as a token describes a
parser that meets no bound, however its repetitions and sequences are nested in one another. So
every script of this kind can be repeated wherever such parsers have led, and the repetition is over
after finitely many iterations.

The induction is over the script. What it carries is that the parser is built from the combinators,
which keeps its runs at a token and lets them only go forward, and that no run of it meets a bound.
-/

namespace Marginalia

open Marginalia.Parser

variable {α β : Type} {input : Input} {start stop : Cursor}

/-! ## Combinators -/

/-- The parser is built from combinators and reads no end of the source, and none of its runs from
where such parsers lead meets a bound. -/
structure Input.Halts (input : Input) (parser : Parser α) : Prop where
  /-- It is built from combinators. -/
  built : Built Solid parser
  /-- It meets no bound. -/
  terminates : input.Terminates parser

/-- A sequence that meets a bound meets it in its first part, or in the second one behind the
first. -/
theorem Parser.bind_exhausted {parser : Parser α} {next : α → Parser β}
    (run : (parser >>= next) input start = .failed (.interrupted .exhausted) stop) :
    parser input start = .failed (.interrupted .exhausted) stop ∨
      ∃ value middle, parser input start = .done value middle ∧
        next value input middle = .failed (.interrupted .exhausted) stop := by
  rw [bind_apply] at run
  cases first : parser input start with
  | done value middle =>
    rw [first] at run
    exact .inr ⟨value, middle, rfl, run⟩
  | failed failure middle =>
    rw [first] at run
    cases run
    exact .inl rfl

/-- Whatever is expected, telling a mismatch meets no bound. -/
theorem Parser.fail_ne_exhausted (expected : List String) (input : Input) (start stop : Cursor) :
    (fail expected input start : Outcome α) ≠ .failed (.interrupted .exhausted) stop := by
  rw [fail_apply]
  split <;> simp

/-- A parser that meets a bound only where another one does terminates with it. -/
theorem Input.Terminates.congr {parser : Parser α} {other : Parser β}
    (terminates : input.Terminates parser)
    (same : ∀ start stop, other input start = .failed (.interrupted .exhausted) stop →
      ∃ middle, parser input start = .failed (.interrupted .exhausted) middle) :
    input.Terminates other := by
  intro start reachable stop run
  obtain ⟨middle, earlier⟩ := same start stop run
  exact terminates start reachable middle earlier

namespace Input.Halts

/-- A value is given without a bound. -/
theorem pure (value : α) : input.Halts (pure value) := ⟨.pure value, fun _ _ _ => nofun⟩

/-- A sequence halts as its parts do. -/
theorem bind {parser : Parser α} {next : α → Parser β} (first : input.Halts parser)
    (second : ∀ value, input.Halts (next value)) : input.Halts (parser >>= next) :=
  ⟨.bind first.built fun value => (second value).built,
    .bind first.built first.terminates fun value => (second value).terminates⟩

/-- The cursor is told. -/
theorem cursor : input.Halts cursor := ⟨.cursor, fun _ _ _ => nofun⟩

/-- The next token is told, if there is one. -/
theorem peek : input.Halts peek := by
  refine ⟨.peek, fun start _ stop => ?_⟩
  rw [peek_apply]
  split <;> simp

/-- The place of the cursor is told. -/
theorem position : input.Halts position := .bind cursor fun cursor => .pure cursor.position

/-- Looking whether the next token is adjacent halts. -/
theorem isAdjacent : input.Halts isAdjacent := .bind peek fun _ => .bind position fun _ => .pure _

/-- Looking for a property of the next token halts. -/
theorem peekThat (property : Token → Bool) : input.Halts (peekThat property) :=
  .bind peek fun _ => .bind isAdjacent fun _ => .pure _

/-- Telling a mismatch halts. -/
theorem fail (expected : List String) : input.Halts (fail expected : Parser α) :=
  ⟨.bind .peek fun _ => .reject _, fun start _ => fail_ne_exhausted expected input start⟩

/-- Reading a token that is not the end of the source halts. -/
theorem satisfy {property : Token → Bool} (solid : Solid property) (label : String) :
    input.Halts (satisfy property label) := ⟨.satisfy solid label, .satisfy property label⟩

/-- Looking for the end of the source, which is not read, halts. -/
theorem eof : input.Halts eof := by
  rw [eof_eq]
  refine .bind (peekThat _) fun ends => ?_
  cases ends with
  | false => exact fail _
  | true => exact pure ()

/-- Passing over blanks and comments halts. -/
theorem whitespace : input.Halts whitespace := ⟨.whitespace, .whitespace⟩

/-- The reference of indentation is told. -/
theorem reference : input.Halts reference := .bind cursor fun _ => .pure _

/-- Looking whether the column is past the reference halts. -/
theorem indented : input.Halts indented := by
  refine .bind reference fun column => .bind position fun place => ?_
  by_cases past : place.column ≤ column
  · simpa only [if_pos past] using fail _
  · simpa only [if_neg past] using pure ()

/-- Looking whether the column is the reference halts. -/
theorem aligned : input.Halts aligned := by
  refine .bind reference fun column => .bind position fun place => ?_
  by_cases differs : place.column ≠ column
  · simpa only [if_pos differs] using fail _
  · simpa only [if_neg differs] using pure ()

/-- Passing over blanks and comments on both sides halts as what stands between them does. -/
theorem padded {parser : Parser α} (inner : input.Halts parser) : input.Halts (padded parser) :=
  .bind whitespace fun _ => .bind inner fun _ => .bind whitespace fun _ => .pure _

/-- Telling the span halts as the parser does. -/
theorem located {parser : Parser α} (inner : input.Halts parser) :
    input.Halts (located parser) :=
  .bind position fun _ => .bind inner fun _ => .bind position fun _ => .pure _

/-- Telling of a line break halts as the parser does. -/
theorem trackNewline {parser : Parser α} (inner : input.Halts parser) :
    input.Halts (trackNewline parser) := by
  refine ⟨.trackNewline inner.built, inner.terminates.congr fun start stop run => ?_⟩
  unfold Parser.trackNewline at run
  split at run
  · cases run
  · cases run
    exact ⟨_, ‹_›⟩

/-- Another reference of indentation leaves a parser halting. -/
theorem withReference {parser : Parser α} (inner : input.Halts parser) :
    input.Halts (withReference parser) := by
  refine ⟨.withReference inner.built, fun start reachable stop run => ?_⟩
  unfold Parser.withReference at run
  split at run
  · cases run
  · cases run
    exact inner.terminates _ (reachable.reindent _) _ ‹_›

/-- Trying a parser halts as it does. -/
theorem attempt {parser : Parser α} (inner : input.Halts parser) :
    input.Halts (attempt parser) := by
  refine ⟨.attempt inner.built, inner.terminates.congr fun start stop run => ?_⟩
  unfold Parser.attempt at run
  split at run
  · cases run
  · exact ⟨stop, run⟩

/-- Looking ahead halts as the parser does. -/
theorem lookAhead {parser : Parser α} (inner : input.Halts parser) :
    input.Halts (lookAhead parser) := by
  refine ⟨.lookAhead inner.built, inner.terminates.congr fun start stop run => ?_⟩
  unfold Parser.lookAhead at run
  split at run
  · cases run
  · cases run
    exact ⟨_, ‹_›⟩

/-- An optional value halts as the parser does. -/
theorem optional {parser : Parser α} (inner : input.Halts parser) :
    input.Halts (optional parser) := ⟨.optional inner.built, inner.terminates.optional⟩

/-- Another label leaves a parser halting. -/
theorem expecting {parser : Parser α} (label : String) (inner : input.Halts parser) :
    input.Halts (expecting label parser) := by
  refine ⟨.expecting label inner.built, inner.terminates.congr fun start stop run => ?_⟩
  unfold Parser.expecting at run
  split at run
  · split at run
    · cases run
    · exact absurd run (fail_ne_exhausted _ _ _ _)
  · exact ⟨stop, run⟩

/-- Committing halts as the check and the parser do. -/
theorem commitIf {check : Parser β} {parser : Parser α} (looks : input.Halts check)
    (inner : input.Halts parser) : input.Halts (commitIf check parser) :=
  .bind looks.lookAhead fun _ => inner

/-- A choice halts as each of its alternatives does. -/
theorem choiceAfter (label : Option String) (expected : List String)
    {alternatives : List (Parser α)}
    (each : ∀ alternative ∈ alternatives, input.Halts alternative) :
    input.Halts (choiceAfter label expected alternatives) := by
  refine ⟨.choiceAfter label expected fun alternative member => (each alternative member).built, ?_⟩
  induction alternatives generalizing expected with
  | nil => exact (fail _).terminates
  | cons alternative others ih =>
    intro start reachable stop run
    simp only [Parser.choiceAfter] at run
    split at run
    · split at run
      · cases run
      · exact ih _ (fun other member => each other (.tail _ member)) start reachable stop run
    · exact (each alternative (.head _)).terminates start reachable stop run

section Loops

variable (scanned : input.Scanned)

include scanned

/-- The values of a parser that halts are told within the bound. -/
theorem values {parser : Parser (Option α)} (inner : input.Halts parser) :
    input.Halts (values parser) := by
  refine ⟨.values inner.built, fun start reachable => ?_⟩
  have loop := values_repeats inner.built.advancing scanned (reachable.at scanned)
  exact inner.terminates.repeats inner.built reachable loop

/-- A run of a parser that halts reaches a cursor at no earlier token. -/
theorem reaches {parser : Parser α} (inner : input.Halts parser)
    (reachable : input.Reachable Solid start) {value : α}
    (run : parser input start = .done value stop) :
    input.Reachable Solid stop ∧ start.index ≤ stop.index := by
  have reached := Reachable.run reachable inner.built
  rw [run] at reached
  have place := reachable.at scanned
  have advances := inner.built.advancing.advances_done scanned place run
  obtain ⟨_, _, _, stands⟩ := place
  obtain ⟨_, _, _, stands'⟩ := advances.place
  exact ⟨reached, stands.index_le scanned stands' advances.offset⟩

/-- A sequence that meets a bound does not meet it in a first part that halts, but in the second
one, at a cursor that such parsers lead to and at no earlier token. -/
theorem exhausted_behind {parser : Parser α} {next : α → Parser β} (first : input.Halts parser)
    (reachable : input.Reachable Solid start)
    (run : (parser >>= next) input start = .failed (.interrupted .exhausted) stop) :
    ∃ value middle, parser input start = .done value middle ∧ input.Reachable Solid middle ∧
      start.index ≤ middle.index ∧
        next value input middle = .failed (.interrupted .exhausted) stop := by
  obtain run | ⟨value, middle, read, run⟩ := bind_exhausted run
  · exact absurd run (first.terminates start reachable stop)
  · obtain ⟨reached, forward⟩ := first.reaches scanned reachable read
    exact ⟨value, middle, read, reached, forward, run⟩

/-- Under a bound that exceeds the tokens left, items that halt are read within it: where there
is another item, a comma has been read before it. -/
theorem itemsUpTo_ne_exhausted {item : Parser α} (inner : input.Halts item) {close : TokenKind}
    (label : String) {bound : Nat} (before : Comments) (reachable : input.Reachable Solid start)
    (enough : input.tokens.size - start.index < bound) :
    itemsUpTo close item label bound before input start ≠ .failed
      (.interrupted .exhausted) stop := by
  induction bound generalizing before start with
  | zero => omega
  | succ bound ih =>
    intro run
    unfold Parser.itemsUpTo at run
    obtain ⟨value, cursor₁, -, reachable₁, index₁, run⟩ :=
      inner.exhausted_behind scanned reachable run
    obtain ⟨after, cursor₂, -, reachable₂, index₂, run⟩ :=
      whitespace.exhausted_behind scanned reachable₁ run
    obtain ⟨goesOn, cursor₃, -, reachable₃, index₃, run⟩ :=
      (peekThat _).exhausted_behind scanned reachable₂ run
    cases goesOn with
    | false =>
      obtain run | ⟨_, _, _, run⟩ := bind_exhausted run
      · exact satisfy_ne_exhausted _ _ _ _ _ run
      · cases run
    | true =>
      have comma : input.Halts (token .comma "','") := satisfy (fun _ => rfl) _
      obtain ⟨_, cursor₄, read, reachable₄, -, run⟩ :=
        comma.exhausted_behind scanned reachable₃ run
      obtain ⟨next, cursor₅, -, reachable₅, index₅, run⟩ :=
        whitespace.exhausted_behind scanned reachable₄ run
      obtain run | ⟨_, _, _, run⟩ := bind_exhausted run
      · have further : cursor₄.index = cursor₃.index + 1 :=
          congrArg Cursor.index (satisfy_done read).2.2
        obtain ⟨_, _, _, stands⟩ := reachable₃.at scanned
        have left : cursor₃.index < input.tokens.size := stands.index_lt
        exact ih next reachable₅ (by omega) run
      · cases run

/-- A bracketed sequence halts as its items do, if the end of the source does not close it. -/
theorem separated {item : Parser α} (inner : input.Halts item) {close : TokenKind}
    (solid : Solid (·.kind == close)) (label : String) :
    input.Halts (separated close item label) := by
  refine ⟨.separated solid inner.built label, fun start reachable stop run => ?_⟩
  unfold Parser.separated at run
  obtain ⟨before, cursor₁, -, reachable₁, -, run⟩ :=
    whitespace.exhausted_behind scanned reachable run
  obtain ⟨closes, cursor₂, -, reachable₂, -, run⟩ :=
    (peekThat _).exhausted_behind scanned reachable₁ run
  cases closes with
  | true =>
    obtain run | ⟨_, _, _, run⟩ := bind_exhausted run
    · exact satisfy_ne_exhausted _ _ _ _ _ run
    · cases run
  | false =>
    obtain run | ⟨_, _, _, run⟩ := bind_exhausted run
    · refine inner.itemsUpTo_ne_exhausted scanned label before reachable₂ ?_ run
      unfold Input.repetitionLimit
      omega
    · cases run

end Loops

end Input.Halts

/-! ## Scripts -/

namespace Script

/-- A result that is there halts as its parser does. -/
theorem shown_halts (write : α → Json) {parser : Parser α} (inner : input.Halts parser) :
    input.Halts (shown write parser) := .bind inner fun _ => .pure _

/-- Parsers in order halt if each of them does. -/
theorem inOrder_halts {parsers : List (Parser Value)}
    (each : ∀ parser ∈ parsers, input.Halts parser) : input.Halts (inOrder parsers) := by
  induction parsers with
  | nil => exact .pure _
  | cons parser rest ih =>
    obtain ⟨first, others⟩ := List.forall_mem_cons.mp each
    exact .bind first fun _ => .bind (ih others) fun _ => .pure _

mutual

/-- The script needs no rule of the grammar and reads no end of the source as a token. -/
def stopsShort : Script → Bool
  | .token kind _ => kind != .eof
  | .satisfy lexemes _ => !lexemes.contains []
  | .padded inner | .trackNewline inner | .located inner | .withReference inner | .attempt inner
  | .lookAhead inner | .optional inner | .many inner | .many1 inner | .expecting _ inner =>
    inner.stopsShort
  | .commitIf check inner => check.stopsShort && inner.stopsShort
  | .separated close _ item => close != .eof && item.stopsShort
  | .group openingKind close _ item => openingKind != .eof && close != .eof && item.stopsShort
  | .choice _ scripts | .all scripts => allStopShort scripts
  | .keyword _ | .operator _ | .position | .peek | .isAdjacent | .peekIs .. |
      .indentReference | .eof
  | .whitespace | .indented | .aligned | .result _ | .mismatch _ | .crash _ => true
  | _ => false

/-- Each of the scripts stops short of the end. -/
def allStopShort : List Script → Bool
  | [] => true
  | script :: rest => script.stopsShort && allStopShort rest

end

/-- Another kind than the end is not that of the end of a source. -/
theorem solid_of_ne {kind : TokenKind} (differs : (kind != .eof) = true) :
    Solid (·.kind == kind) := by
  intro span
  have other : kind ≠ .eof := bne_iff_ne.mp differs
  exact beq_false_of_ne other.symm

mutual

/-- What a script describes that stops short of the end of the source halts. -/
theorem parser_halts (scanned : input.Scanned) (style : Json.Style) (script : Script)
    (short : script.stopsShort = true) : input.Halts (parser style script) := by
  cases script <;> unfold stopsShort at short <;> unfold parser
  case position => exact shown_halts _ .position
  case peek => exact shown_halts _ .peek
  case isAdjacent => exact shown_halts _ .isAdjacent
  case peekIs kind lexeme => cases lexeme <;> exact shown_halts _ (.peekThat _)
  case indentReference => exact shown_halts _ .reference
  case token kind label => exact shown_halts _ (.satisfy (solid_of_ne short) label)
  case keyword word => exact shown_halts _ (.satisfy (fun _ => rfl) _)
  case operator symbol => exact shown_halts _ (.satisfy (fun _ => rfl) _)
  case satisfy lexemes label =>
    exact shown_halts _ (.satisfy (fun _ => by simpa using short) label)
  case eof => exact shown_halts _ .eof
  case whitespace => exact shown_halts _ .whitespace
  case indented => exact shown_halts _ .indented
  case aligned => exact shown_halts _ .aligned
  case padded inner => exact shown_halts _ (parser_halts scanned style inner short).padded
  case trackNewline inner =>
    exact shown_halts _ (parser_halts scanned style inner short).trackNewline
  case located inner => exact shown_halts _ (parser_halts scanned style inner short).located
  case withReference inner => exact (parser_halts scanned style inner short).withReference
  case attempt inner => exact (parser_halts scanned style inner short).attempt
  case lookAhead inner => exact (parser_halts scanned style inner short).lookAhead
  case optional inner =>
    exact .bind (parser_halts scanned style inner short).optional fun _ => .pure _
  case many inner => exact shown_halts _ ((parser_halts scanned style inner short).values scanned)
  case many1 inner =>
    have item := parser_halts scanned style inner short
    exact .bind item fun _ => .bind (item.values scanned) fun _ => .pure _
  case choice label alternatives =>
    cases label <;> exact .choiceAfter _ _ (parsers_halt scanned style alternatives short)
  case expecting label inner => exact (parser_halts scanned style inner short).expecting label
  case commitIf check inner =>
    obtain ⟨looks, reads⟩ := Bool.and_eq_true_iff.mp short
    have check := parser_halts scanned style check looks
    exact check.commitIf (parser_halts scanned style inner reads)
  case separated close label item =>
    obtain ⟨closing, inner⟩ := Bool.and_eq_true_iff.mp short
    have item := parser_halts scanned style item inner
    exact shown_halts _ (item.separated scanned (solid_of_ne closing) label)
  case group openingKind close label item =>
    obtain ⟨brackets, inner⟩ := Bool.and_eq_true_iff.mp short
    obtain ⟨opening, closing⟩ := Bool.and_eq_true_iff.mp brackets
    have item := parser_halts scanned style item inner
    have items := item.separated scanned (solid_of_ne closing) label
    exact shown_halts _
      (Input.Halts.bind (.satisfy (solid_of_ne opening) _) fun _ => items).trackNewline
  case all scripts => exact shown_halts _ (inOrder_halts (parsers_halt scanned style scripts short))
  case result => exact .pure _
  case mismatch expected => exact .fail expected
  case crash => exact ⟨.interrupt _, fun _ _ _ => nofun⟩
  all_goals cases short

/-- What each of such scripts describes halts. -/
theorem parsers_halt (scanned : input.Scanned) (style : Json.Style) (scripts : List Script)
    (short : allStopShort scripts = true) :
    ∀ parser ∈ parsers style scripts, input.Halts parser := by
  cases scripts with
  | nil => exact List.forall_mem_nil _
  | cons script rest =>
    obtain ⟨first, others⟩ := Bool.and_eq_true_iff.mp short
    exact List.forall_mem_cons.mpr
      ⟨parser_halts scanned style script first, parsers_halt scanned style rest others⟩

end

/-- Scripts come to an end. What a script describes that stops short of the end of the source meets
no bound from wherever such parsers have led, and can be repeated there: each iteration that goes on
comes closer to the end of the source, and the repetition is over after finitely many of them. -/
theorem repetitions_end {source : Text} (made : Input.ofSource? source = .ok input)
    (style : Json.Style) {script : Script} (short : script.stopsShort = true) {cursor : Cursor}
    (reachable : input.Reachable Solid cursor) :
    (∀ stop, parser style script input cursor ≠ .failed (.interrupted .exhausted) stop) ∧
      input.Repetition (parser style script) cursor := by
  obtain ⟨same, scan⟩ := Input.ofSource?_eq_ok.mp made
  have scanned : input.Scanned := .of_scan same scan
  have item := parser_halts scanned style script short
  exact ⟨item.terminates cursor reachable,
    item.terminates.repetition item.built scanned reachable⟩

/-- A script of nested repetitions stops short of the end of the source. -/
example :
    (many1 (padded (separated .comma "','" (many (token .number "a number"))))).stopsShort =
      true := by
  decide

end Script

end Marginalia
