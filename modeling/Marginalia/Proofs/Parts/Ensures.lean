import Marginalia.Proofs.Parts.Law
import Marginalia.Proofs.Tiling.Sequence
import Mathlib.Data.List.Find

/-!
# What successful runs ensure

From a cursor with some references of indentation, a successful run of a parser ends at a cursor
with the same references, and its value is as described. A count of tokens that have been read at
least goes along, so that a rule can be told from what stands further inside it.
-/

namespace Marginalia

open Marginalia.Parser

variable {α β : Type} {input : Input}

/-! ## Solid tokens ahead -/

/-- From the place of a cursor on, the first solid token is the first one of those that are still to
be read. -/
theorem Input.Stands.solidFrom_eq {cursor : Cursor} {before after : List Token} {next : Token}
    (stands : input.Stands cursor before next after) (scanned : input.Scanned) :
    solidFrom input.tokens.toList cursor.position = (next :: after).find? fun token =>
      !token.isComment := by
  have bounds := stands.bounds scanned
  have ordered := Scan.Divides.ordered scanned
  rw [stands.tokens] at ordered
  have none : (before.find? fun token =>
      !token.isComment && decide (cursor.position.offset ≤ token.span.start.offset)) = none := by
    refine List.find?_eq_none.mpr fun token member => ?_
    have early := ordered.start_lt (List.cons_ne_nil _ _) token member
    simp only [Bool.and_eq_true, decide_eq_true_eq]
    omega
  rw [solidFrom, stands.tokens, List.find?_append, none, Option.none_or]
  refine List.find?_congr fun token member => ?_
  have late : cursor.position.offset ≤ token.span.start.offset := by
    cases stands.ordered scanned with
    | cons gap wide _ further =>
      cases member with
      | head => exact bounds.2
      | tail _ inAfter =>
        have start := further.start_le token inAfter
        omega
  simp [late]

/-- The first solid token from the place of a cursor on is the one that the cursor stands at, if it
starts there. -/
theorem Input.Stands.eq_of_solidFrom {cursor : Cursor} {before after : List Token}
    {next token : Token} (stands : input.Stands cursor before next after) (scanned : input.Scanned)
    (found : solidFrom input.tokens.toList cursor.position = some token)
    (starts : token.span.start.offset = cursor.position.offset) : next = token := by
  rw [stands.solidFrom_eq scanned] at found
  by_cases comment : next.isComment = true
  · -- a comment takes up some of the source, so no token behind it starts at the cursor
    rw [List.find?_cons_of_neg (by simp [comment])] at found
    have member := List.mem_of_find?_eq_some found
    have upper := (stands.bounds scanned).2
    cases stands.ordered scanned with
    | cons _ _ strict further =>
      have wide := strict (List.ne_nil_of_mem member)
      have later := further.start_le token member
      omega
  · rw [List.find?_cons_of_pos (by simpa using comment)] at found
    exact Option.some.inj found

/-! ## The judgement -/

/-- The cursor is at a token with so many before it at least, and has these references of
indentation. -/
structure Input.Level (input : Input) (levels : List Nat) (least : Nat)
    (cursor : Cursor) : Prop where
  /-- The cursor is at a token. -/
  place : input.At cursor
  /-- The references are these. -/
  indentation : cursor.indentation = levels
  /-- So many tokens have been read. -/
  index : least ≤ cursor.index

/-- The cursor has also read any lesser number of tokens. -/
theorem Input.Level.mono {levels : List Nat} {least fewer : Nat} {cursor : Cursor}
    (level : input.Level levels least cursor) (le : fewer ≤ least) :
    input.Level levels fewer cursor :=
  ⟨level.place, level.indentation, Nat.le_trans le level.index⟩

/-- From a cursor that has read so many tokens, a successful run comes to one that has read so many,
with the same references of indentation, and ends as described. -/
def Ensures (input : Input) (levels : List Nat) (early late : Nat) (start : Cursor)
    (parser : Parser α) (described : α → Cursor → Prop) : Prop :=
  input.Level levels early start → ∀ value stop, parser input start = .done value stop →
    input.Level levels late stop ∧ described value stop

namespace Ensures

variable {levels : List Nat} {early middle late : Nat} {start : Cursor} {parser : Parser α}
  {next : α → Parser β} {told : α → Cursor → Prop} {described : β → Cursor → Prop}

/-! ## Sequences -/

/-- A sequence goes on from wherever its first parser ends. -/
theorem bind (first : Ensures input levels early middle start parser told)
    (second : ∀ value between, told value between →
      Ensures input levels middle late between (next value) described) :
    Ensures input levels early late start (parser >>= next) described := by
  intro level result stop run
  obtain ⟨value, between, runFirst, runSecond⟩ := bind_done.mp run
  obtain ⟨level', holds⟩ := first level value between runFirst
  exact second value between holds level' result stop runSecond

/-- A value is given where the run began. -/
theorem pure {value : α} (holds : told value start) :
    Ensures input levels early early start (Pure.pure value) told := by
  intro level result stop run
  obtain ⟨rfl, rfl⟩ := Outcome.done.inj run
  exact ⟨level, holds⟩

/-- What is ensured may be said in another way. -/
theorem imp {other : α → Cursor → Prop}
    (ensures : Ensures input levels early late start parser told)
    (weaker : ∀ value stop, told value stop → other value stop) :
    Ensures input levels early late start parser other := by
  intro level value stop run
  obtain ⟨level', holds⟩ := ensures level value stop run
  exact ⟨level', weaker value stop holds⟩

/-- What is known of the runs from the cursor is ensured, too. -/
theorem also {other : α → Cursor → Prop}
    (ensures : Ensures input levels early late start parser told) (known : input.Level levels early
      start → ∀ value stop, parser input start = .done value stop → other value stop) :
    Ensures input levels early late start parser fun value stop => told value stop ∧
    other value stop := by
  intro level value stop run
  obtain ⟨level', holds⟩ := ensures level value stop run
  exact ⟨level', holds, known level value stop run⟩

/-- A run may have read more tokens before, and need not have read all of them after. -/
theorem le {more fewer : Nat} (ensures : Ensures input levels early late start parser told)
    (before : early ≤ more) (after : fewer ≤ late) :
    Ensures input levels more fewer start parser told := by
  intro level value stop run
  obtain ⟨level', holds⟩ := ensures (level.mono before) value stop run
  exact ⟨level'.mono after, holds⟩

/-- That a run has read one more token may be left out. -/
theorem stay (ensures : Ensures input levels early (early + 1) start parser told) :
    Ensures input levels early early start parser told :=
  ensures.le (Nat.le_refl _) (Nat.le_succ _)

/-- A value is made of another one. -/
theorem map {make : α → β}
    (ensures : Ensures input levels early late start parser fun value => described (make value)) :
    Ensures input levels early late start
      (parser >>= fun value => Pure.pure (make value)) described :=
  .bind ensures fun _ _ holds => .pure holds

/-- A failure ensures anything. -/
theorem fail (expected : List String) :
    Ensures input levels early late start (Parser.fail expected) told :=
  fun _ value stop run => absurd run (fail_ne_done expected input start stop value)

/-- The place of the cursor is told without reading. -/
theorem position {next : Position → Parser β}
    (ensures : Ensures input levels early late start (next start.position) described) :
    Ensures input levels early late start (Parser.position >>= next) described := ensures

/-- The next token is examined without reading. -/
theorem peekThat (property : Token → Bool) :
    Ensures input levels early early start (Parser.peekThat property) fun _ stop =>
      stop = start := by
  intro level holds stop run
  obtain ⟨rfl, -⟩ := peekThat_done run
  exact ⟨level, rfl⟩

/-- A lookahead does not move. -/
theorem lookAhead :
    Ensures input levels early early start (Parser.lookAhead parser) fun _ stop =>
      stop = start := by
  intro level value stop run
  obtain ⟨rfl, -⟩ := lookAhead_done run
  exact ⟨level, rfl⟩

/-- A rule that is entered after a look ahead ensures what it does itself. -/
theorem commitIf {check : Parser β} (ensures : Ensures input levels early late start parser told) :
    Ensures input levels early late start (Parser.commitIf check parser) told := by
  refine .bind .lookAhead fun _ stop same => ?_
  subst same
  exact ensures

/-- A decision after a test of the next token ensures what both of its branches do. -/
theorem ifPeek {property : Token → Bool} {yes no : Parser β}
    (whenYes : Ensures input levels early late start yes described)
    (whenNo : Ensures input levels early late start no described) :
    Ensures input levels early late start (Parser.peekThat property >>= fun holds =>
      if holds then yes else no) described := by
  refine .bind (.peekThat property) fun holds stop same => ?_
  subst same
  cases holds with
  | true => exact whenYes
  | false => exact whenNo

/-! ## Indentation -/

/-- What is indented is past the reference. -/
theorem indented : Ensures input levels early early start Parser.indented
    fun _ stop => stop = start ∧ levels.headD 1 < start.position.column := by
  intro level value stop run
  obtain ⟨rfl, past⟩ := indented_done run
  rw [Cursor.reference, level.indentation] at past
  exact ⟨level, rfl, past⟩

/-- What is aligned is at the reference. -/
theorem aligned : Ensures input levels early early start Parser.aligned
    fun _ stop => stop = start ∧ start.position.column = levels.headD 1 := by
  intro level value stop run
  obtain ⟨rfl, same⟩ := aligned_done run
  rw [Cursor.reference, level.indentation] at same
  exact ⟨level, rfl, same⟩

/-- What is read with a reference is measured from it, and the references around it are kept. -/
theorem withReference
    (ensures : Ensures input (start.position.column :: levels) early late
      { start with indentation := start.position.column :: levels } parser
      fun value stop => told value { stop with indentation := levels }) :
    Ensures input levels early late start (Parser.withReference parser) told := by
  intro level value stop run
  obtain ⟨after, inner, rfl⟩ := withReference_done run
  rw [level.indentation] at inner ⊢
  obtain ⟨level', holds⟩ := ensures ⟨level.place.reindent _, rfl, level.index⟩ value after inner
  exact ⟨⟨level'.place.reindent _, rfl, level'.index⟩, holds⟩

/-! ## Backtracking, choice and places -/

/-- An attempt ensures what its parser does. -/
theorem attempt (ensures : Ensures input levels early late start parser told) :
    Ensures input levels early late start (Parser.attempt parser) told :=
  fun level value stop run => ensures level value stop (attempt_done.mp run)

/-- Replacing what is expected changes nothing that is ensured. -/
theorem expecting (label : String) (ensures : Ensures input levels early late start parser told) :
    Ensures input levels early late start (Parser.expecting label parser) told :=
  fun level value stop run => ensures level value stop (expecting_done run)

/-- A choice ensures what all of its alternatives do. -/
theorem choice {label : Option String} {expected : List String} {alternatives : List (Parser α)}
    (ensures : ∀ alternative ∈ alternatives,
      Ensures input levels early late start alternative told) :
    Ensures input levels early late start (choiceAfter label expected alternatives) told := by
  intro level value stop run
  obtain ⟨alternative, member, same⟩ := choiceAfter_done run
  exact ensures alternative member level value stop same

/-- An optional value is as its parser ensures, or there is none and nothing was read. -/
theorem optional (ensures : Ensures input levels early late start parser told) (le : early ≤ late) :
    Ensures input levels early early start (Parser.optional parser) fun found stop =>
      (∃ value, found = some value ∧ told value stop) ∨ found = none ∧ stop = start := by
  intro level found stop run
  rcases optional_done run with ⟨value, rfl, inner⟩ | ⟨rfl, rfl⟩
  · obtain ⟨level', holds⟩ := ensures level value stop inner
    exact ⟨level'.mono le, .inl ⟨value, rfl, holds⟩⟩
  · exact ⟨level, .inr ⟨rfl, rfl⟩⟩

/-- A located value has the span of its run. -/
theorem located (ensures : Ensures input levels early late start parser told) :
    Ensures input levels early late start (Parser.located parser)
      fun value stop => value.span = ⟨start.position, stop.position⟩ ∧ told value.value stop := by
  intro level value stop run
  obtain ⟨span, inner⟩ := located_done run
  obtain ⟨level', holds⟩ := ensures level value.value stop inner
  exact ⟨level', span, holds⟩

/-- A value with its line break tells of the stretch of its run. -/
theorem trackNewline (ensures : Ensures input levels early late start parser told) :
    Ensures input levels early late start (Parser.trackNewline parser) fun value stop =>
      value.2 = input.source.crosses start.position stop.position ∧ told value.1 stop := by
  intro level value stop run
  obtain ⟨inner, crossed⟩ := trackNewline_done run
  obtain ⟨level', holds⟩ := ensures level value.1 stop inner
  exact ⟨level', crossed, holds⟩

end Ensures

/-! ## Tokens and blanks -/

section Tokens

variable (scanned : input.Scanned) {levels : List Nat} {least : Nat} {start : Cursor}

include scanned

/-- A run that reads a token stops behind its start. -/
theorem Ensures.wide {parser : Parser α} {told : α → Cursor → Prop}
    (ensures : ∀ count, least ≤ count → Ensures input levels count (count + 1) start parser told) :
    Ensures input levels least (least + 1) start parser fun value stop =>
      start.position.offset < stop.position.offset ∧ told value stop := by
  rintro ⟨place, indentation, index⟩ value stop run
  obtain ⟨level, holds⟩ := ensures start.index index ⟨place, indentation,
    Nat.le_refl _⟩ value stop run
  have ⟨_, _, _, stands⟩ := place
  have ⟨_, _, _, stands'⟩ := level.place
  exact ⟨level.mono (Nat.succ_le_succ index), stands.offset_lt scanned stands' level.index, holds⟩

/-- A token that is read is the solid one at the cursor, which comes to stand behind it. -/
theorem satisfy_ensures {property : Token → Bool}
    (notEnd : ∀ token, property token = true → token.kind ≠ .eof) (label : String) :
    Ensures input levels least (least + 1) start (satisfy property label) fun token stop =>
      property token = true ∧ solidFrom input.tokens.toList start.position = some token ∧
        token.span.start = start.position ∧ stop.position = token.span.stop := by
  rintro ⟨⟨before, next, after, stands⟩, indentation, index⟩ token stop run
  obtain ⟨found, ⟨starts, noComment, holds⟩, rfl⟩ := satisfy_done run
  obtain rfl : next = token := Option.some.inj (stands.tokenAt?.symm.trans found)
  obtain ⟨second, rest, -, stands', -⟩ := stands.past scanned (notEnd next holds)
  refine ⟨⟨⟨_, _, _, stands'⟩, indentation, Nat.succ_le_succ index⟩, holds, ?_,
    stands.start_eq scanned starts, rfl⟩
  rw [stands.solidFrom_eq scanned, List.find?_cons_of_pos (by simp [noComment])]

/-- A token of a kind is read. -/
theorem token_ensures {kind : TokenKind} (notEnd : kind ≠ .eof) (label : String) :
    Ensures input levels least (least + 1) start (token kind label) fun token stop =>
      token.kind = kind ∧ solidFrom input.tokens.toList start.position = some token ∧
        token.span.start = start.position ∧ stop.position = token.span.stop := by
  have isKind : ∀ token : Token, (token.kind == kind) = true → token.kind = kind :=
    fun _ holds => beq_iff_eq.mp holds
  refine (satisfy_ensures scanned (fun token holds => ?_) label).imp fun token stop facts => ?_
  · rw [isKind token holds]
    exact notEnd
  · exact ⟨isKind token facts.1, facts.2⟩

/-- A token of a kind with a spelling is read. -/
theorem spelled_ensures {kind : TokenKind} (notEnd : kind ≠ .eof) (word : String) :
    Ensures input levels least (least + 1) start (spelled kind word) fun token stop =>
      token.Is kind word ∧ solidFrom input.tokens.toList start.position = some token ∧
        token.span.start = start.position ∧ stop.position = token.span.stop := by
  refine (satisfy_ensures scanned (fun token holds => ?_) _).imp fun token stop facts => ?_
  · rw [(isSpelled_iff.mp holds).1]
    exact notEnd
  · exact ⟨isSpelled_iff.mp facts.1, facts.2⟩

/-- A reserved word is read. -/
theorem keyword_ensures (word : String) :
    Ensures input levels least (least + 1) start (keyword word) fun token stop =>
      token.Is .keyword word ∧ solidFrom input.tokens.toList start.position = some token ∧
        token.span.start = start.position ∧ stop.position = token.span.stop :=
  spelled_ensures scanned (by decide) word

/-- Behind blanks and comments the next solid token is the same, and starts there. -/
theorem whitespace_ensures : Ensures input levels least least start whitespace fun _ stop =>
    solidFrom input.tokens.toList stop.position = solidFrom input.tokens.toList start.position ∧
      ∃ token, solidFrom input.tokens.toList start.position = some token ∧
      token.span.start = stop.position := by
  rintro ⟨⟨before, next, after, stands⟩, indentation, index⟩ comments stop run
  obtain ⟨found, solid, rest, split, areComments, notComment⟩ := stands.split_comments scanned
  have tokens := stands.tokens
  rw [split] at tokens
  have again := whitespace_apply tokens stands.index areComments notComment
  obtain ⟨-, rfl⟩ := Outcome.done.inj (again.symm.trans run)
  have stands' : input.Stands ⟨before.length + found.length, solid.span.start, start.indentation⟩
      (before ++ found) solid rest := by
    refine ⟨?_, ?_, .inl rfl⟩
    · rw [tokens, List.append_assoc]
    · rw [List.length_append]
  have ahead : solidFrom input.tokens.toList start.position = some solid := by
    have none : (found.find? fun token => !token.isComment) = none :=
      List.find?_eq_none.mpr fun token member => by simp [areComments token member]
    rw [stands.solidFrom_eq scanned, split, List.find?_append, none, Option.none_or,
      List.find?_cons_of_pos (by simp [notComment])]
  refine ⟨⟨⟨_, _, _, stands'⟩, indentation, ?_⟩, ?_, solid, ahead, rfl⟩
  · have read := stands.index
    show least ≤ before.length + found.length
    omega
  · rw [ahead, stands'.solidFrom_eq scanned, List.find?_cons_of_pos (by simp [notComment])]

/-- A value between comments is as its parser ensures. -/
theorem padded_ensures {early late : Nat} {parser : Parser α} {told : Cursor → α → Cursor → Prop}
    (ensures : ∀ start, Ensures input levels early late start parser (told start)) :
    Ensures input levels early late start (padded parser) fun found stop => ∃ first last,
      told first found.value last ∧
      solidFrom input.tokens.toList first.position = solidFrom input.tokens.toList start.position ∧
      solidFrom input.tokens.toList stop.position = solidFrom input.tokens.toList last.position ∧
      ∃ token, solidFrom input.tokens.toList last.position = some token ∧
      token.span.start = stop.position := by
  refine .bind (whitespace_ensures scanned) fun before first leads => ?_
  refine .bind (ensures first) fun value last holds => ?_
  refine .bind (whitespace_ensures scanned) fun after stop follows => ?_
  exact .pure ⟨first, last, holds, leads.1, follows⟩

end Tokens

end Marginalia
