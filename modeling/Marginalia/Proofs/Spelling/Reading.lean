import Marginalia.Proofs.Parser.Input
import Marginalia.Proofs.Spelling.Comments
import Marginalia.Proofs.Spelling.Words

/-!
# Parsers that read what their values say

A parser reads what its values say when, in every successful run, the tokens that it passed over
hold exactly the comments of the value, in order, and the other tokens spell exactly the words of
the value. The judgement `Extends` carries what earlier parsers of a sequence have read, so that a
sequence is followed from its start to the value that it makes of everything.
-/

namespace Marginalia.Parser

variable {α β : Type} {input : Input} {start middle stop : Cursor}

/-! ## What a run passes over -/

/-- The tokens from one cursor to another hold the comments and spell the words. -/
def Passed (input : Input) (start stop : Cursor) (comments : Comments) (words : List Word) : Prop :=
  ∃ read, input.tokens.toList.drop start.index = read ++ input.tokens.toList.drop stop.index ∧
    commentsOf read = comments ∧ Spelled words (solidOf read)

/-- Nothing is passed over between cursors at the same token. -/
theorem Passed.nothing (same : stop.index = start.index) : Passed input start stop [] [] :=
  ⟨[], by rw [same, List.nil_append], rfl, .nil⟩

/-- What is passed over adds up. -/
theorem Passed.trans {comments further : Comments} {words others : List Word}
    (first : Passed input start middle comments words)
    (second : Passed input middle stop further others) :
    Passed input start stop (comments ++ further) (words ++ others) := by
  obtain ⟨read, split, rfl, spelled⟩ := first
  obtain ⟨next, splitNext, rfl, spelledNext⟩ := second
  refine ⟨read ++ next, ?_, commentsOf_append _ _, ?_⟩
  · rw [split, splitNext, List.append_assoc]
  · rw [solidOf_append]
    exact spelled.append spelledNext

/-! ## The judgement -/

/-- After comments and words that were read before, a successful run passes over what is still
missing of those that its value has. -/
def Extends (input : Input) (comments : Comments) (words : List Word) (parser : Parser α)
    (allComments : α → Comments) (allWords : α → List Word) : Prop :=
  ∀ start value stop, parser input start = .done value stop →
    ∃ further others, allComments value = comments ++ further ∧ allWords value = words ++ others ∧
      Passed input start stop further others

/-- A successful run passes over the comments and the words that its value has. -/
def Reads (input : Input) (parser : Parser α) (allComments : α → Comments)
    (allWords : α → List Word) : Prop :=
  Extends input [] [] parser allComments allWords

/-- What a parser reads, run by run. -/
theorem reads_iff {parser : Parser α} {allComments : α → Comments} {allWords : α → List Word} :
    Reads input parser allComments allWords ↔
      ∀ start value stop, parser input start = .done value stop →
        Passed input start stop (allComments value) (allWords value) := by
  constructor
  · intro reads start value stop run
    obtain ⟨further, others, sameComments, sameWords, passed⟩ := reads start value stop run
    rwa [sameComments, sameWords]
  · intro passes start value stop run
    exact ⟨_, _, rfl, rfl, passes start value stop run⟩

/-- The parser gives the value in some successful run. -/
def Gives (input : Input) (parser : Parser α) (value : α) : Prop :=
  ∃ start stop, parser input start = .done value stop

section Sequences

variable {comments : Comments} {words : List Word} {parser : Parser α} {next : α → Parser β}
  {firstComments : α → Comments} {firstWords : α → List Word} {allComments : β → Comments}
  {allWords : β → List Word}

/-- A sequence goes on with a value that its first parser gives, and with what that reads. -/
theorem Extends.bindGiven (first : Reads input parser firstComments firstWords)
    (second : ∀ value, Gives input parser value → Extends input (comments ++ firstComments value)
      (words ++ firstWords value) (next value) allComments allWords) :
    Extends input comments words (parser >>= next) allComments allWords := by
  intro start result stop run
  obtain ⟨value, middle, runFirst, runSecond⟩ := bind_done.mp run
  have passed := reads_iff.mp first start value middle runFirst
  obtain ⟨further, others, sameComments, sameWords, passedNext⟩ :=
    second value ⟨start, middle, runFirst⟩ middle result stop runSecond
  refine ⟨firstComments value ++ further, firstWords value ++ others, ?_, ?_,
    passed.trans passedNext⟩
  · rw [sameComments, List.append_assoc]
  · rw [sameWords, List.append_assoc]

/-- A sequence goes on with what its first parser reads. -/
theorem Extends.bind (first : Reads input parser firstComments firstWords)
    (second : ∀ value, Extends input (comments ++ firstComments value) (words ++ firstWords value)
      (next value) allComments allWords) :
    Extends input comments words (parser >>= next) allComments allWords :=
  .bindGiven first fun value _ => second value

/-- A sequence goes on with a value that its first parser gives, and with what that makes of the
last comments. -/
theorem Extends.bindAfter (comments : Comments) {read before : Comments}
    (first : Extends input before [] parser firstComments firstWords)
    (split : read = comments ++ before)
    (second : ∀ value, Gives input parser value → Extends input (comments ++ firstComments value)
      (words ++ firstWords value) (next value) allComments allWords) :
    Extends input read words (parser >>= next) allComments allWords := by
  subst split
  intro start result stop run
  obtain ⟨value, middle, runFirst, runSecond⟩ := bind_done.mp run
  obtain ⟨read, spelled, sameRead, sameSpelled, passed⟩ := first start value middle runFirst
  obtain ⟨further, others, sameComments, sameWords, passedNext⟩ :=
    second value ⟨start, middle, runFirst⟩ middle result stop runSecond
  refine ⟨read ++ further, spelled ++ others, ?_, ?_, passed.trans passedNext⟩
  · rw [sameComments, sameRead]
    simp
  · rw [sameWords, sameSpelled]
    simp

/-- A value is made of everything that was read. -/
theorem Extends.pure {value : α} (sameComments : firstComments value = comments)
    (sameWords : firstWords value = words) :
    Extends input comments words (Pure.pure value) firstComments firstWords := by
  intro start result stop run
  obtain ⟨rfl, rfl⟩ := Outcome.done.inj run
  exact ⟨[], [], by simp [sameComments], by simp [sameWords], .nothing rfl⟩

/-- The last parser of a sequence makes the value of everything that was read and of what it
reads. -/
theorem Extends.last {allComments : α → Comments} {allWords : α → List Word}
    (reads : Reads input parser firstComments firstWords)
    (sameComments : ∀ value, allComments value = comments ++ firstComments value)
    (sameWords : ∀ value, allWords value = words ++ firstWords value) :
    Extends input comments words parser allComments allWords :=
  fun start value stop run =>
    ⟨_, _, sameComments value, sameWords value, reads_iff.mp reads start value stop run⟩

/-- A failure makes no value. -/
theorem Extends.fail (expected : List String) :
    Extends input comments words (Parser.fail expected) firstComments firstWords :=
  fun start value stop run => absurd run (fail_ne_done expected input start stop value)

/-- A parser with a changed value reads what the value has. -/
theorem Reads.map {f : α → β} (reads : Reads input parser firstComments firstWords)
    (sameComments : ∀ value, allComments (f value) = firstComments value)
    (sameWords : ∀ value, allWords (f value) = firstWords value) :
    Reads input (f <$> parser) allComments allWords :=
  Extends.bind reads fun value => .pure (by simp [sameComments]) (by simp [sameWords])

end Sequences

/-! ## Combinators -/

section Combinators

variable {parser : Parser α} {allComments : α → Comments} {allWords : α → List Word}

/-- A parser that does not move reads nothing. -/
theorem reads_nothing (still : ∀ start value stop, parser input start = .done value stop →
      stop.index = start.index) : Reads input parser (fun _ => []) (fun _ => []) :=
  reads_iff.mpr fun start value stop run => .nothing (still start value stop run)

/-- The position is told without reading. -/
theorem position_reads : Reads input position (fun _ => []) (fun _ => []) :=
  reads_nothing fun start value stop run => by rw [← (Outcome.done.inj run).2]

/-- The next token is looked at without reading. -/
theorem peek_reads : Reads input peek (fun _ => []) (fun _ => []) := by
  refine reads_nothing fun start value stop run => ?_
  rw [peek_apply] at run
  split at run
  · rw [← (Outcome.done.inj run).2]
  · cases run

/-- The next token is examined without reading. -/
theorem peekThat_reads (property : Token → Bool) :
    Reads input (peekThat property) (fun _ => []) (fun _ => []) :=
  reads_nothing fun start value stop run => by rw [(peekThat_done run).1]

/-- The indentation is examined without reading. -/
theorem indented_reads : Reads input indented (fun _ => []) (fun _ => []) :=
  reads_nothing fun _ _ _ run => congrArg Cursor.index (indented_done run).1

/-- The alignment is examined without reading. -/
theorem aligned_reads : Reads input aligned (fun _ => []) (fun _ => []) :=
  reads_nothing fun _ _ _ run => congrArg Cursor.index (aligned_done run).1

/-- The end of the input is found without reading. -/
theorem eof_reads : Reads input eof (fun _ => []) (fun _ => []) := by
  refine reads_nothing fun start value stop run => ?_
  obtain ⟨-, -, -, rfl⟩ := eof_done run
  rfl

/-- A lookahead reads nothing. -/
theorem lookAhead_reads : Reads input (lookAhead parser) (fun _ => []) (fun _ => []) :=
  reads_nothing fun _ _ _ run => by rw [(lookAhead_done run).1]

/-- Blanks and comments read as the comments. -/
theorem whitespace_reads : Reads input whitespace id (fun _ => []) := by
  refine reads_iff.mpr fun start value stop run => ?_
  obtain ⟨next, -, rfl, rfl⟩ := whitespace_done run
  have comments := input.isComment_of_mem_commentsAt start.index
  refine ⟨input.commentsAt start.index, input.drop_eq_commentsAt_append start.index, ?_, ?_⟩
  · rw [commentsOf, List.filter_eq_self.mpr comments]
    rfl
  · have none : solidOf (input.commentsAt start.index) = [] :=
      List.filter_eq_nil_iff.mpr fun token member => by simp [comments token member]
    rw [none]
    exact .nil

/-- An attempt reads what its parser reads. -/
theorem Reads.attempt (reads : Reads input parser allComments allWords) :
    Reads input (attempt parser) allComments allWords :=
  fun start value stop run => reads start value stop (attempt_done.mp run)

/-- An optional value reads as the value, and nothing reads as nothing. -/
theorem Reads.optional (reads : Reads input parser allComments allWords) :
    Reads input (optional parser) (·.elim [] allComments) (·.elim [] allWords) := by
  refine reads_iff.mpr fun start value stop run => ?_
  rcases optional_done run with ⟨inner, rfl, runInner⟩ | ⟨rfl, rfl⟩
  · exact reads_iff.mp reads start inner stop runInner
  · exact .nothing rfl

/-- A choice reads what each of its alternatives reads. -/
theorem Reads.choiceAfter {label : Option String} {expected : List String}
    {alternatives : List (Parser α)}
    (reads : ∀ parser ∈ alternatives, Reads input parser allComments allWords) :
    Reads input (choiceAfter label expected alternatives) allComments allWords := by
  intro start value stop run
  obtain ⟨parser, member, runChosen⟩ := choiceAfter_done run
  exact reads parser member start value stop runChosen

/-- A parser reads the same whatever it is said to expect. -/
theorem Reads.expecting (reads : Reads input parser allComments allWords) (label : String) :
    Reads input (expecting label parser) allComments allWords :=
  fun start value stop run => reads start value stop (expecting_done run)

/-- A located value reads as the value. -/
theorem Reads.located (reads : Reads input parser allComments allWords) :
    Reads input (located parser) (allComments ·.value) (allWords ·.value) :=
  fun start value stop run => reads start value.value stop (located_done run).2

/-- A value with its line break reads as the value. -/
theorem Reads.trackNewline (reads : Reads input parser allComments allWords) :
    Reads input (trackNewline parser) (allComments ·.1) (allWords ·.1) :=
  fun start value stop run => reads start value.1 stop (trackNewline_done run).1

/-- A parser reads the same under another reference. -/
theorem Extends.withReference {comments : Comments} {words : List Word}
    (extended : Extends input comments words parser allComments allWords) :
    Extends input comments words (withReference parser) allComments allWords := by
  intro start value stop run
  obtain ⟨after, runInner, rfl⟩ := withReference_done run
  have passed := extended _ value after runInner
  exact passed

/-- A value with the comments around it. -/
theorem Reads.padded (reads : Reads input parser allComments allWords) :
    Reads input (padded parser) (·.allComments allComments) (allWords ·.value) := by
  refine .bind whitespace_reads fun before => .bind reads fun value =>
    .bind whitespace_reads fun after => ?_
  exact .pure (by simp) (by simp)

/-- A committed parser reads what it reads uncommitted. -/
theorem Reads.commitIf (reads : Reads input parser allComments allWords) (check : Parser β) :
    Reads input (commitIf check parser) allComments allWords :=
  .bind lookAhead_reads fun _ => reads

end Combinators

end Marginalia.Parser
