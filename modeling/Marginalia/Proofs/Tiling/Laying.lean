import Marginalia.Proofs.Parser.Place
import Marginalia.Proofs.Tree.Outline

/-!
# Parsers that lay out what they read

A parser lays out its values when the spans in them lie, in order, in the stretch of source that a
run consumes. What gives a node its span is where the run of its rule begins and ends; so along a
run it is also told whether it has begun with a token, and whether the last thing it read was a
token or blanks.
-/

namespace Marginalia

open Marginalia.Parser

variable {α β γ : Type}

/-! ## Outlines in a row -/

/-- The outlines lie in a stretch of source, the parts one after the other, and tile the tokens. -/
structure Row (tokens : List Token) (start : Nat) (outlines : List Outline)
    (stop : Nat) : Prop where
  /-- The stretch does not end before it begins. -/
  le : start ≤ stop
  /-- The outlines lie in the stretch. -/
  within : ∀ outline ∈ outlines, outline.Inside start stop
  /-- The parts stand beside each other. -/
  apart : (outlines.filter Outline.isPart).Pairwise Outline.Before
  /-- The outlines tile the tokens. -/
  tiles : ∀ outline ∈ outlines, outline.Tiles tokens

namespace Row

variable {tokens : List Token} {start middle stop : Nat} {first second : List Outline}

/-- Nothing lies in every stretch. -/
theorem nil (tokens : List Token) (le : start ≤ stop) : Row tokens start [] stop :=
  ⟨le, nofun, .nil, nofun⟩

/-- What lies in two stretches, one behind the other, lies in both together. -/
theorem append (row : Row tokens start first middle) (further : Row tokens middle second stop) :
    Row tokens start (first ++ second) stop := by
  have lower := row.le
  have upper := further.le
  constructor
  · exact Nat.le_trans lower upper
  · intro outline member
    rcases List.mem_append.mp member with inFirst | inSecond
    · have inside := row.within outline inFirst
      exact ⟨inside.start_le, Nat.le_trans inside.le_stop upper⟩
    · have inside := further.within outline inSecond
      exact ⟨Nat.le_trans lower inside.start_le, inside.le_stop⟩
  · rw [List.filter_append, List.pairwise_append]
    refine ⟨row.apart, further.apart, fun one inFirst other inSecond => ?_⟩
    have before := row.within one (List.mem_filter.mp inFirst).1
    have behind := further.within other (List.mem_filter.mp inSecond).1
    exact Nat.le_trans before.le_stop behind.start_le
  · intro outline member
    rcases List.mem_append.mp member with inFirst | inSecond
    · exact row.tiles outline inFirst
    · exact further.tiles outline inSecond

/-- Outlines in a row are the inside of a part that begins and ends with a token. -/
theorem part {span : Span} {inside : List Outline}
    (row : Row tokens span.start.offset inside span.stop.offset)
    (starts : ∃ token ∈ solidOf tokens, token.span.start = span.start)
    (stops : ∃ token ∈ solidOf tokens, token.span.stop = span.stop)
    (wide : span.start.offset < span.stop.offset) :
    Row tokens span.start.offset [.part span inside] span.stop.offset := by
  have tiles : Outline.Tiles tokens (.part span inside) :=
    .part starts stops wide row.within row.apart row.tiles
  refine ⟨row.le, ?_, ?_, ?_⟩
  · intro outline member
    obtain rfl := List.mem_singleton.mp member
    exact ⟨Nat.le_refl _, Nat.le_refl _⟩
  · exact List.pairwise_singleton _ _
  · intro outline member
    obtain rfl := List.mem_singleton.mp member
    exact tiles

/-- What lies in a stretch lies in every longer one. -/
theorem widen {early late : Nat} (row : Row tokens start first stop) (le_start : early ≤ start)
    (stop_le : stop ≤ late) : Row tokens early first late := by
  have le := row.le
  refine ⟨by omega, fun outline member => ?_, row.apart, row.tiles⟩
  have inside := row.within outline member
  exact ⟨Nat.le_trans le_start inside.start_le, Nat.le_trans inside.le_stop stop_le⟩

/-- Parts in a row stand in the stretch that begins with the first of them. -/
theorem from_first {span : Span} {inside rest : List Outline}
    (row : Row tokens start (.part span inside :: rest) stop)
    (parts : ∀ outline ∈ rest, outline.isPart = true) :
    Row tokens span.start.offset (.part span inside :: rest) stop := by
  have leading := row.within _ (.head _)
  have wide : span.start.offset < span.stop.offset := by
    cases row.tiles _ (.head _) with
    | part starts stops wide => exact wide
  have upper : span.stop.offset ≤ stop := leading.le_stop
  refine ⟨by omega, ?_, row.apart, row.tiles⟩
  intro outline member
  have within := row.within outline member
  cases member with
  | head => exact ⟨Nat.le_refl _, within.le_stop⟩
  | tail _ inRest =>
    have apart := row.apart
    rw [List.filter_cons_of_pos rfl, List.pairwise_cons] at apart
    have before : span.stop.offset ≤ outline.span.start.offset :=
      apart.1 outline (List.mem_filter.mpr ⟨inRest, parts outline inRest⟩)
    exact ⟨by omega, within.le_stop⟩

/-- Comments of one place lie in a row there. -/
theorem comments {span : Span} (le : span.start.offset ≤ span.stop.offset) (entries : List α) :
    Row tokens span.start.offset (entries.map fun _ => .comment span) span.stop.offset := by
  refine ⟨le, ?_, ?_, ?_⟩
  · intro outline member
    obtain ⟨entry, -, rfl⟩ := List.mem_map.mp member
    exact ⟨Nat.le_refl _, Nat.le_refl _⟩
  · have none : (entries.map fun _ => Outline.comment span).filter Outline.isPart = [] := by
      rw [List.filter_eq_nil_iff]
      intro outline member
      obtain ⟨entry, -, rfl⟩ := List.mem_map.mp member
      exact Bool.false_ne_true
    rw [none]
    exact .nil
  · intro outline member
    obtain ⟨entry, -, rfl⟩ := List.mem_map.mp member
    exact .comment span

end Row

/-! ## What is told of a run -/

/-- Since the place where it began, a run has read something, and a token first. -/
structure Input.Begun (input : Input) (origin cursor : Cursor) : Prop where
  /-- The run began with a token. -/
  starts : ∃ token ∈ solidOf input.tokens.toList, token.span.start = origin.position
  /-- Something was read. -/
  later : origin.index < cursor.index

/-- The last thing that was read is a token. -/
def Input.BehindToken (input : Input) (cursor : Cursor) : Prop :=
  ∃ token ∈ solidOf input.tokens.toList, token.span.stop = cursor.position

/-- How far a run has come that may become a node. -/
inductive Stage where
  /-- Nothing was read yet. -/
  | fresh
  /-- Nothing is told. -/
  | loose
  /-- Something was read, and a token first. -/
  | begun
  /-- Something was read, a token first and a token last. -/
  | ended

namespace Stage

/-- What a stage says of a run from an origin to a cursor. -/
def Holds (input : Input) (origin cursor : Cursor) : Stage → Prop
  | fresh => cursor.index = origin.index ∧ cursor.position = origin.position
  | loose => True
  | begun => input.Begun origin cursor
  | ended => input.Begun origin cursor ∧ input.BehindToken cursor

/-- The stage behind a token. -/
def read : Stage → Stage
  | loose => loose
  | _ => ended

/-- The stage behind blanks and comments. -/
def skip : Stage → Stage
  | begun => begun
  | ended => begun
  | _ => loose

/-- Other references of indentation change nothing. -/
theorem Holds.reindent {input : Input} {origin cursor : Cursor} {stage : Stage}
    (holds : stage.Holds input origin cursor) (levels : List Nat) :
    stage.Holds input origin { cursor with indentation := levels } := by
  cases stage with
  | fresh => exact holds
  | loose => trivial
  | begun => exact ⟨holds.starts, holds.later⟩
  | ended => exact ⟨⟨holds.1.starts, holds.1.later⟩, holds.2⟩

end Stage

/-- What was begun is still begun later. -/
theorem Input.Begun.mono {input : Input} {origin cursor later : Cursor}
    (begun : input.Begun origin cursor) (le : cursor.index ≤ later.index) :
    input.Begun origin later :=
  ⟨begun.starts, Nat.lt_of_lt_of_le begun.later le⟩

/-! ## The judgement -/

/-- The outlines of a value are these. -/
def outlined (outlines : α → List Outline) : α → List Outline → Cursor → Prop :=
  fun value found _ => outlines value = found

/-- After outlines that were laid out before, a successful run lays out what lies in the stretch
that it consumes, and comes from one stage to another; its value and all outlines are as
described. -/
def Lays (input : Input) (origin : Cursor) (outlines : List Outline) (early late : Stage)
    (parser : Parser α) (described : α → List Outline → Cursor → Prop) : Prop :=
  ∀ start, input.At start → early.Holds input origin start → ∀ value stop, parser input start =
      .done value stop → (input.At stop ∧ late.Holds input origin stop ∧ start.index ≤ stop.index) ∧
    ∃ more, Row input.tokens.toList start.position.offset more stop.position.offset ∧
    described value (outlines ++ more) stop

/-- A successful run reads a token first and a token last, and lays out what its value has. -/
def Solid (input : Input) (parser : Parser α) (outlines : α → List Outline) : Prop :=
  ∀ origin, Lays input origin [] .fresh .ended parser (outlined outlines)

section Sequences

variable {input : Input} {origin : Cursor} {outlines : List Outline} {early middle late : Stage}
  {parser : Parser α} {next : α → Parser β} {first : α → List Outline}
  {described : β → List Outline → Cursor → Prop}

/-- A sequence goes on with what its first parser lays out. -/
theorem Lays.bind (begins : Lays input origin [] early middle parser (outlined first))
    (goesOn : ∀ value, Lays input origin (outlines ++ first value) middle late (next value)
      described) : Lays input origin outlines early late (parser >>= next) described := by
  intro start place holds result stop run
  obtain ⟨value, between, runFirst, runSecond⟩ := bind_done.mp run
  obtain ⟨⟨place', holds', le⟩, more, row, same⟩ := begins start place holds value between runFirst
  obtain ⟨⟨place'', holds'', le'⟩, others, row', fits⟩ :=
    goesOn value between place' holds' result stop runSecond
  have found : first value = more := same
  rw [found, List.append_assoc] at fits
  exact ⟨⟨place'', holds'', Nat.le_trans le le'⟩, more ++ others, row.append row', fits⟩

/-- A value is made of everything that was laid out. -/
theorem Lays.pure {value : β} (fits : ∀ cursor, described value outlines cursor) :
    Lays input origin outlines early early (pure value) described := by
  intro start place holds result stop run
  obtain ⟨rfl, rfl⟩ := Outcome.done.inj run
  refine ⟨⟨place, holds, Nat.le_refl _⟩, [], .nil _ (Nat.le_refl _), ?_⟩
  rw [List.append_nil]
  exact fits start

/-- A value is made of everything that was laid out, and of the place where the run ends. -/
theorem Lays.closing {value : Position → β}
    (fits : ∀ cursor : Cursor, described (value cursor.position) outlines cursor) :
    Lays input origin outlines early early (position >>= fun stop => Pure.pure (value stop))
      described := by
  intro start place holds result stop run
  obtain ⟨rfl, rfl⟩ := Outcome.done.inj run
  refine ⟨⟨place, holds, Nat.le_refl _⟩, [], .nil _ (Nat.le_refl _), ?_⟩
  rw [List.append_nil]
  exact fits start

/-- A run that has read nothing yet is told the place where it began. -/
theorem Lays.opening {next : Position → Parser β}
    (goesOn : Lays input origin outlines .fresh late (next origin.position) described) :
    Lays input origin outlines .fresh late (position >>= next) described := by
  intro start place holds result stop run
  obtain ⟨same, between, runFirst, runSecond⟩ := bind_done.mp run
  obtain ⟨rfl, rfl⟩ := Outcome.done.inj runFirst
  have told : start.position = origin.position := holds.2
  rw [told] at runSecond
  exact goesOn start place holds result stop runSecond

/-- The place of a run is told without reading. -/
theorem Lays.place {next : Position → Parser β}
    (goesOn : ∀ place, Lays input origin outlines early late (next place) described) :
    Lays input origin outlines early late (position >>= next) described := by
  intro start place holds result stop run
  exact goesOn start.position start place holds result stop run

/-- A failure makes no value. -/
theorem Lays.fail (expected : List String) :
    Lays input origin outlines early late (Parser.fail expected) described :=
  fun start _ _ value stop run => absurd run (fail_ne_done expected input start stop value)

/-- The last parser of a sequence makes the value of everything that was laid out and of what it
lays out. -/
theorem Lays.last {described : α → List Outline → Cursor → Prop}
    (lays : Lays input origin [] early late parser (outlined first))
    (fits : ∀ value cursor, described value (outlines ++ first value) cursor) :
    Lays input origin outlines early late parser described := by
  intro start place holds value stop run
  obtain ⟨told, more, row, same⟩ := lays start place holds value stop run
  have found : first value = more := same
  refine ⟨told, more, row, ?_⟩
  rw [← found]
  exact fits value stop

/-- A value that is made of another one is described as that one allows. -/
theorem Lays.after {described : α → List Outline → Cursor → Prop}
    {others : β → List Outline → Cursor → Prop}
    (lays : Lays input origin outlines early late parser described)
    (ends : ∀ value found stop, described value found stop →
      ∃ result, next value = Pure.pure result ∧ others result found stop) :
    Lays input origin outlines early late (parser >>= next) others := by
  intro start place holds result stop run
  obtain ⟨value, between, runFirst, runSecond⟩ := bind_done.mp run
  obtain ⟨told, more, row, fits⟩ := lays start place holds value between runFirst
  obtain ⟨made, same, fits'⟩ := ends value (outlines ++ more) between fits
  rw [same] at runSecond
  obtain ⟨rfl, rfl⟩ := Outcome.done.inj runSecond
  exact ⟨told, more, row, fits'⟩

end Sequences

section Combinators

variable {input : Input} {origin : Cursor} {outlines : List Outline} {early late : Stage}
  {parser : Parser α} {described : α → List Outline → Cursor → Prop} {first : α → List Outline}

/-- A parser that does not move lays out nothing. -/
theorem Lays.still (still : ∀ start value stop, parser input start = .done value stop →
      stop = start) : Lays input origin [] early early parser (outlined fun _ => []) := by
  intro start place holds value stop run
  obtain rfl := still start value stop run
  exact ⟨⟨place, holds, Nat.le_refl _⟩, [], .nil _ (Nat.le_refl _), rfl⟩

/-- The next token is examined without reading. -/
theorem Lays.peekThat (property : Token → Bool) :
    Lays input origin [] early early (peekThat property) (outlined fun _ => []) :=
  .still fun _ _ _ run => (peekThat_done run).1

/-- A lookahead lays out nothing. -/
theorem Lays.lookAhead :
    Lays input origin [] early early (lookAhead parser) (outlined fun _ => []) :=
  .still fun _ _ _ run => (lookAhead_done run).1

/-- The indentation is examined without reading. -/
theorem Lays.indented : Lays input origin [] early early indented (outlined fun _ => []) :=
  .still fun _ _ _ run => (indented_done run).1

/-- The alignment is examined without reading. -/
theorem Lays.aligned : Lays input origin [] early early aligned (outlined fun _ => []) :=
  .still fun _ _ _ run => (aligned_done run).1

/-- An attempt lays out what its parser does. -/
theorem Lays.attempt (lays : Lays input origin outlines early late parser described) :
    Lays input origin outlines early late (attempt parser) described :=
  fun start place holds value stop run => lays start place holds value stop (attempt_done.mp run)

/-- A choice lays out what each of its alternatives does. -/
theorem Lays.choiceAfter {label : Option String} {expected : List String}
    {alternatives : List (Parser α)}
    (lays : ∀ parser ∈ alternatives, Lays input origin outlines early late parser described) :
    Lays input origin outlines early late (choiceAfter label expected alternatives) described := by
  intro start place holds value stop run
  obtain ⟨parser, member, runChosen⟩ := choiceAfter_done run
  exact lays parser member start place holds value stop runChosen

/-- A parser lays out the same whatever it is said to expect. -/
theorem Lays.expecting (lays : Lays input origin outlines early late parser described)
    (label : String) : Lays input origin outlines early late (expecting label parser) described :=
  fun start place holds value stop run => lays start place holds value stop (expecting_done run)

/-- A located value has the span of its run. -/
theorem Lays.located (lays : Lays input origin [] .fresh late parser described) :
    Lays input origin [] .fresh late (located parser) fun value found stop =>
      described value.value found stop ∧ value.span = ⟨origin.position, stop.position⟩ := by
  intro start place holds value stop run
  obtain ⟨spanned, runInner⟩ := located_done run
  obtain ⟨told, more, row, fits⟩ := lays start place holds value.value stop runInner
  refine ⟨told, more, row, fits, ?_⟩
  rw [spanned, holds.2]

/-- A value with its line break is laid out as the value. -/
theorem Lays.trackNewline (lays : Lays input origin [] early late parser (outlined first)) :
    Lays input origin [] early late (trackNewline parser) (outlined (first ·.1)) :=
  fun start place holds value stop run =>
    lays start place holds value.1 stop (trackNewline_done run).1

/-- A parser lays out the same under another reference. -/
theorem Lays.withReference (lays : Lays input origin [] early late parser (outlined first)) :
    Lays input origin [] early late (withReference parser) (outlined first) := by
  intro start place holds value stop run
  obtain ⟨after, runInner, rfl⟩ := withReference_done run
  obtain ⟨⟨place', holds', le⟩, more, row, same⟩ :=
    lays _ (place.reindent _) (holds.reindent _) value after runInner
  exact ⟨⟨place'.reindent _, holds'.reindent _, le⟩, more, row, same⟩

/-- An optional value is laid out as the value, where reading it leaves the stage as it is. -/
theorem Lays.optional (lays : Lays input origin [] early early parser (outlined first)) :
    Lays input origin [] early early (optional parser) (outlined (·.elim [] first)) := by
  intro start place holds value stop run
  rcases optional_done run with ⟨inner, rfl, runInner⟩ | ⟨rfl, rfl⟩
  · exact lays start place holds inner stop runInner
  · exact ⟨⟨place, holds, Nat.le_refl _⟩, [], .nil _ (Nat.le_refl _), rfl⟩

/-- A committed parser lays out what it does uncommitted. -/
theorem Lays.commitIf (check : Parser β)
    (lays : Lays input origin [] early late parser (outlined first)) :
    Lays input origin [] early late (commitIf check parser) (outlined first) :=
  .bind .lookAhead fun _ => lays

end Combinators

end Marginalia
