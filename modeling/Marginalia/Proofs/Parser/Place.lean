import Marginalia.Proofs.Parser.Input

/-!
# Places of cursors

A cursor that a run reaches stands at a token of the input: it has come to the start of that token,
or no further than the stop of the one before it. The tokens of a source follow one another, so
along a run the position of the cursor tells whether something was consumed, and only so much can
be.
-/

namespace Marginalia

/-! ## Tokens in order -/

/-- The tokens follow one another from a position on, and each but the last takes up some of it. -/
inductive Ordered : Position → List Token → Prop where
  | nil (position : Position) : Ordered position []
  | cons {position : Position} {token : Token} {rest : List Token}
      (gap : position.offset ≤ token.span.start.offset)
      (wide : token.span.start.offset ≤ token.span.stop.offset)
      (solid : rest ≠ [] → token.span.start.offset < token.span.stop.offset)
      (further : Ordered token.span.stop rest) : Ordered position (token :: rest)

/-- All tokens that follow a position start there or later. -/
theorem Ordered.start_le {position : Position} {tokens : List Token}
    (ordered : Ordered position tokens) :
    ∀ token ∈ tokens, position.offset ≤ token.span.start.offset := by
  induction ordered with
  | nil => simp
  | cons gap wide _ _ ih =>
    refine List.forall_mem_cons.mpr ⟨gap, fun later member => ?_⟩
    have start := ih later member
    omega

/-- Tokens that follow a place follow every place before it. -/
theorem Ordered.of_le {earlier later : Position} {tokens : List Token}
    (ordered : Ordered later tokens) (le : earlier.offset ≤ later.offset) :
    Ordered earlier tokens := by
  cases ordered with
  | nil => exact .nil earlier
  | cons gap wide solid further => exact .cons (Nat.le_trans le gap) wide solid further

/-- One more code unit adds one to the offset. -/
theorem Position.offset_step (position : Position) (u : CodeUnit) :
    (position.step u).offset = position.offset + 1 :=
  position.offset_advance [u]

/-- The tokens that a source divides into follow one another. -/
theorem Scan.Divides.ordered {position : Position} {text : Text} {found : List Token}
    (divides : Scan.Divides position text found) : Ordered position found := by
  induction divides with
  | done position =>
    exact .cons (Nat.le_refl _) (Nat.le_refl _) (fun solid => absurd rfl solid) (.nil _)
  | @blank position u rest tokens blank further ih =>
    have next := position.offset_step u
    exact ih.of_le (by omega)
  | @token position u tail rest kind tokens solid read further ih =>
    have stop := position.offset_advance (u :: tail)
    rw [List.length_cons] at stop
    refine .cons (Nat.le_refl _) ?_ (fun _ => ?_) ih
    · show position.offset ≤ (position.advance (u :: tail)).offset
      omega
    · show position.offset < (position.advance (u :: tail)).offset
      omega

/-- Where the last of the tokens stops that follow a position. -/
def stopAfter (position : Position) : List Token → Position
  | [] => position
  | token :: rest => stopAfter token.span.stop rest

/-- The last of two runs of tokens stops where the second one does. -/
theorem stopAfter_append (position : Position) (first second : List Token) :
    stopAfter position (first ++ second) = stopAfter (stopAfter position first) second := by
  induction first generalizing position with
  | nil => rfl
  | cons token rest ih => exact ih token.span.stop

/-- What follows some of the tokens follows the place where these stop. -/
theorem Ordered.after {position : Position} {first second : List Token}
    (ordered : Ordered position (first ++ second)) :
    Ordered (stopAfter position first) second ∧
    position.offset ≤ (stopAfter position first).offset := by
  induction first generalizing position with
  | nil => exact ⟨ordered, Nat.le_refl _⟩
  | cons token rest ih =>
    cases ordered with
    | cons gap wide _ further =>
      obtain ⟨follows, le⟩ := ih further
      exact ⟨follows, Nat.le_trans gap (Nat.le_trans wide le)⟩

/-- Tokens that are read start before the place where the last of them stops. -/
theorem Ordered.start_lt {position : Position} {before rest : List Token}
    (ordered : Ordered position (before ++ rest)) (some : rest ≠ []) :
    ∀ token ∈ before, token.span.start.offset < (stopAfter position before).offset := by
  induction before generalizing position with
  | nil => exact List.forall_mem_nil _
  | cons token before ih =>
    cases ordered with
    | cons gap wide solid further =>
      have notLast : before ++ rest ≠ [] := by simp [some]
      have behind := further.after.2
      have strict := solid notLast
      refine List.forall_mem_cons.mpr ⟨?_, ih further⟩
      show token.span.start.offset < (stopAfter token.span.stop before).offset
      omega

/-- The tokens behind some of the tokens of a text are those of what is left behind these. -/
theorem Scan.Divides.after {position : Position} {text : Text} {found : List Token}
    (divides : Scan.Divides position text found) :
    ∀ {first second : List Token}, found = first ++ second → second ≠ [] →
      ∃ rest, Scan.Divides (stopAfter position first) rest second := by
  induction divides with
  | done position =>
    intro first second split some
    cases first with
    | nil =>
      obtain rfl : _ = second := split
      exact ⟨[], .done position⟩
    | cons token others =>
      have none := (List.append_eq_nil_iff.mp (List.cons.inj split).2.symm).2
      exact absurd none some
  | blank blank further ih =>
    intro first second split some
    cases first with
    | nil =>
      obtain rfl : _ = second := split
      exact ⟨_, .blank blank further⟩
    | cons token others => exact ih split some
  | token solid read further ih =>
    intro first second split some
    cases first with
    | nil =>
      obtain rfl : _ = second := split
      exact ⟨_, .token solid read further⟩
    | cons token others =>
      obtain ⟨rfl, rest⟩ := List.cons.inj split
      exact ih rest some

/-- A token that follows a place without blanks starts at that very place. -/
theorem Scan.Divides.start_eq {position : Position} {text : Text} {token : Token}
    {rest : List Token} (divides : Scan.Divides position text (token :: rest))
    (same : token.span.start.offset = position.offset) : token.span.start = position := by
  cases divides with
  | done => rfl
  | @blank position u text tokens blank further =>
    have next := position.offset_step u
    cases further.ordered with
    | cons gap _ _ _ => omega
  | token => rfl

/-! ## Cursors at a token -/

/-- The cursor stands at a token, between the tokens before it and those after it. -/
structure Input.Stands (input : Input) (cursor : Cursor) (before : List Token) (next : Token)
    (after : List Token) : Prop where
  /-- The tokens are these. -/
  tokens : input.tokens.toList = before ++ next :: after
  /-- The tokens before are the ones that were read. -/
  index : cursor.index = before.length
  /-- The source has been consumed up to the token or up to the one before it. -/
  position : cursor.position = next.span.start ∨ cursor.position = stopAfter .start before

namespace Input.Stands

variable {input : Input} {cursor : Cursor} {before after : List Token} {next : Token}

/-- The token that the cursor stands at is the one that is looked at. -/
theorem tokenAt? (stands : input.Stands cursor before next after) :
    input.tokenAt? cursor.index = some next := by
  have found : input.tokens[cursor.index]? = some next := by
    rw [← Array.getElem?_toList, stands.tokens, stands.index]
    simp
  rw [Input.tokenAt?, found]
  rfl

/-- The cursor is not past the last token. -/
theorem index_lt (stands : input.Stands cursor before next after) :
    cursor.index < input.tokens.size := by
  rw [← Array.length_toList, stands.tokens, stands.index, List.length_append, List.length_cons]
  omega

/-- The tokens from the one that the cursor stands at on follow the stop of the one before it. -/
theorem ordered (stands : input.Stands cursor before next after) (scanned : input.Scanned) :
    Ordered (stopAfter .start before) (next :: after) := by
  have whole := Scan.Divides.ordered scanned
  rw [stands.tokens] at whole
  exact whole.after.1

/-- The cursor has come no further than to the start of its token, and not less far than the one
before. -/
theorem bounds (stands : input.Stands cursor before next after) (scanned : input.Scanned) :
    (stopAfter .start before).offset ≤ cursor.position.offset ∧
      cursor.position.offset ≤ next.span.start.offset := by
  cases stands.ordered scanned with
  | cons gap _ _ _ =>
    cases stands.position with
    | inl atStart => exact ⟨atStart ▸ gap, atStart ▸ Nat.le_refl _⟩
    | inr atStop => exact ⟨atStop ▸ Nat.le_refl _, atStop ▸ gap⟩

/-- The token starts at the very place of the cursor, if it starts at the offset of the cursor. -/
theorem start_eq (stands : input.Stands cursor before next after) (scanned : input.Scanned)
    (starts : Parser.StartsAt next cursor) : next.span.start = cursor.position := by
  cases stands.position with
  | inl atStart => exact atStart.symm
  | inr atStop =>
    obtain ⟨rest, divides⟩ := Scan.Divides.after scanned stands.tokens (List.cons_ne_nil _ _)
    rw [atStop]
    apply divides.start_eq
    rw [← atStop]
    exact starts

/-- Only the end of the source has no token after it. -/
theorem after_ne_nil (stands : input.Stands cursor before next after) (scanned : input.Scanned)
    (solid : next.kind ≠ .eof) : after ≠ [] := by
  rintro rfl
  obtain ⟨inner, stop, same, -⟩ := Scan.Divides.closed scanned
  rw [stands.tokens] at same
  have last := List.append_inj_right' same rfl
  rw [List.cons.injEq] at last
  exact solid (last.1 ▸ rfl)

section Two

variable {cursor' : Cursor} {before' after' : List Token} {next' : Token}

/-- Two cursors with one index stand at one token. -/
theorem unique (stands : input.Stands cursor before next after)
    (stands' : input.Stands cursor' before' next' after') (same : cursor.index = cursor'.index) :
    before = before' ∧ next = next' ∧ after = after' := by
  have lengths : before.length = before'.length := by rw [← stands.index, same, stands'.index]
  obtain ⟨sameBefore, sameRest⟩ := List.append_inj (stands.tokens.symm.trans stands'.tokens) lengths
  obtain ⟨sameNext, sameAfter⟩ := List.cons.inj sameRest
  exact ⟨sameBefore, sameNext, sameAfter⟩

/-- Before a later token stand the tokens before an earlier one, that token, and some more. -/
theorem between (stands : input.Stands cursor before next after)
    (stands' : input.Stands cursor' before' next' after') (later : cursor.index < cursor'.index) :
    ∃ more, before' = before ++ next :: more ∧ after = more ++ next' :: after' := by
  have lengths : before.length < before'.length := by
    rw [← stands.index, ← stands'.index]
    exact later
  rcases List.append_eq_append_iff.mp (stands.tokens.symm.trans stands'.tokens) with
    ⟨middle, whole, rest⟩ | ⟨middle, whole, rest⟩
  · cases middle with
    | nil =>
      rw [List.append_nil] at whole
      rw [whole] at lengths
      omega
    | cons first middle =>
      obtain ⟨rfl, sameRest⟩ := List.cons.inj rest
      exact ⟨middle, whole, sameRest⟩
  · rw [whole, List.length_append] at lengths
    omega

/-- A cursor at a later token has consumed more of the source. -/
theorem offset_lt (scanned : input.Scanned) (stands : input.Stands cursor before next after)
    (stands' : input.Stands cursor' before' next' after') (later : cursor.index < cursor'.index) :
    cursor.position.offset < cursor'.position.offset := by
  obtain ⟨more, rfl, same⟩ := stands.between stands' later
  have ordered := stands.ordered scanned
  have upper := (stands.bounds scanned).2
  have lower := (stands'.bounds scanned).1
  rw [stopAfter_append] at lower
  cases ordered with
  | cons gap wide solid further =>
    have notLast : after ≠ [] := by simp [same]
    have strict := solid notLast
    have rest := (show Ordered next.span.stop (more ++ next' :: after') from same ▸ further).after.2
    simp only [stopAfter] at lower
    omega

/-- Between two places something was consumed exactly if their offsets differ. -/
theorem movedFrom_iff (scanned : input.Scanned) (stands : input.Stands cursor before next after)
    (stands' : input.Stands cursor' before' next' after') :
    cursor'.movedFrom cursor = true ↔ cursor'.position.offset ≠ cursor.position.offset := by
  simp only [Cursor.movedFrom, Bool.or_eq_true, bne_iff_ne]
  constructor
  · rintro (differs | differs)
    · rcases Nat.lt_or_gt_of_ne differs with earlier | later
      · exact Nat.ne_of_lt (stands'.offset_lt scanned stands earlier)
      · exact Nat.ne_of_gt (stands.offset_lt scanned stands' later)
    · exact differs
  · exact .inr

/-- A cursor that has consumed no less of the source is at no earlier token. -/
theorem index_le (scanned : input.Scanned) (stands : input.Stands cursor before next after)
    (stands' : input.Stands cursor' before' next' after')
    (le : cursor.position.offset ≤ cursor'.position.offset) : cursor.index ≤ cursor'.index := by
  by_cases earlier : cursor'.index < cursor.index
  · have less := stands'.offset_lt scanned stands earlier
    omega
  · omega

end Two

/-! ## Reading on -/

/-- Behind a token that is not the end of the source, the cursor stands at the one after it. -/
theorem past (stands : input.Stands cursor before next after) (scanned : input.Scanned)
    (solid : next.kind ≠ .eof) :
    ∃ second rest, after = second :: rest ∧
      input.Stands (Parser.past next cursor) (before ++ [next]) second rest ∧
      next.span.start.offset < next.span.stop.offset := by
  cases after with
  | nil => exact absurd rfl (stands.after_ne_nil scanned solid)
  | cons second rest =>
    refine ⟨second, rest, rfl, ⟨?_, ?_, ?_⟩, ?_⟩
    · rw [stands.tokens, List.append_assoc, List.singleton_append]
    · simp [Parser.past, stands.index]
    · simp [Parser.past, stopAfter_append, stopAfter]
    · cases stands.ordered scanned with
      | cons _ _ strict _ => exact strict (List.cons_ne_nil _ _)

/-- From where the cursor stands there are some comments and then a token that is none. -/
theorem split_comments (stands : input.Stands cursor before next after) (scanned : input.Scanned) :
    ∃ comments solid rest, next :: after = comments ++ solid :: rest ∧
      (∀ token ∈ comments, token.isComment = true) ∧ solid.isComment = false := by
  obtain ⟨inner, stop, closed, -⟩ := Scan.Divides.closed scanned
  have ends : (⟨.eof, [], ⟨stop, stop⟩⟩ : Token) ∈ next :: after := by
    have whole : (before ++ next :: after).getLast? = some ⟨.eof, [], ⟨stop, stop⟩⟩ := by
      rw [← stands.tokens, closed, List.getLast?_concat]
    rw [List.getLast?_append, List.getLast?_cons, Option.some_or] at whole
    exact List.mem_of_getLast? (List.getLast?_cons.trans whole)
  have isSome : ((next :: after).find? fun token => !token.isComment).isSome = true :=
    List.find?_isSome.mpr ⟨_, ends, rfl⟩
  obtain ⟨solid, found⟩ := Option.isSome_iff_exists.mp isSome
  obtain ⟨notComment, comments, rest, split, areComments⟩ := List.find?_eq_some_iff_append.mp found
  refine ⟨comments, solid, rest, split, fun token member => ?_, ?_⟩
  · simpa using areComments token member
  · simpa using notComment

end Input.Stands

/-- Blanks and comments are passed over up to the first token that is no comment. -/
theorem Parser.whitespace_apply {input : Input} {cursor : Cursor}
    {before comments after : List Token} {next : Token}
    (tokens : input.tokens.toList = before ++ (comments ++ next :: after))
    (index : cursor.index = before.length)
    (areComments : ∀ token ∈ comments, token.isComment = true) (solid : next.isComment = false) :
    whitespace input cursor = .done (comments.map Comment.ofToken) ⟨before.length + comments.length,
      next.span.start, cursor.indentation⟩ := by
  have found : input.commentsAt before.length = comments := by
    rw [Input.commentsAt_eq_takeWhile, tokens, List.drop_left, List.takeWhile_append_of_pos
        areComments, List.takeWhile_cons_of_neg (by simp [solid]), List.append_nil]
  have stops : input.tokens[before.length + comments.length]? = some next := by
    rw [← Array.getElem?_toList, tokens, ← List.append_assoc, ← List.length_append]
    simp
  rw [whitespace, index, found, stops]
  rfl

/-- From where a cursor stands, blanks and comments are passed over up to the start of a token that
is no comment. -/
theorem Input.Stands.whitespace {input : Input} {cursor : Cursor} {before after : List Token}
    {next : Token} (stands : input.Stands cursor before next after) (scanned : input.Scanned) :
    ∃ comments cursor' before' next' after', Parser.whitespace input cursor =
      .done comments cursor' ∧ input.Stands cursor' before' next' after' ∧
      Parser.StartsAt next' cursor' ∧ next'.isComment = false ∧ cursor.index ≤ cursor'.index ∧
      cursor.position.offset ≤ cursor'.position.offset := by
  obtain ⟨comments, solid, rest, split, areComments, notComment⟩ := stands.split_comments scanned
  have tokens := stands.tokens
  rw [split] at tokens
  have run := Parser.whitespace_apply tokens stands.index areComments notComment
  have stands' : input.Stands ⟨before.length + comments.length, solid.span.start,
        cursor.indentation⟩ (before ++ comments) solid rest := by
    refine ⟨?_, ?_, .inl rfl⟩
    · rw [tokens, List.append_assoc]
    · rw [List.length_append]
  refine ⟨_, _, _, _, _, run, stands', rfl, notComment, ?_, ?_⟩
  · show cursor.index ≤ before.length + comments.length
    rw [stands.index]
    omega
  · cases comments with
    | nil =>
      obtain ⟨rfl, -⟩ := List.cons.inj split
      exact (stands.bounds scanned).2
    | cons first others =>
      refine Nat.le_of_lt (stands.offset_lt scanned stands' ?_)
      show cursor.index < before.length + (others.length + 1)
      rw [stands.index]
      omega

/-- The cursor is at a token of the input. The last token is the end of the source, so that the end
is not read yet. -/
def Input.At (input : Input) (cursor : Cursor) : Prop := ∃ before next after,
  input.Stands cursor before next after

/-- Other references of indentation change no place. -/
theorem Input.At.reindent {input : Input} {cursor : Cursor} (place : input.At cursor)
    (levels : List Nat) : input.At { cursor with indentation := levels } := by
  obtain ⟨before, next, after, stands⟩ := place
  exact ⟨before, next, after, stands.tokens, stands.index, stands.position⟩

/-- The cursor before the first token is at a token. -/
theorem Input.Scanned.at_start {input : Input} (scanned : input.Scanned) : input.At .start := by
  obtain ⟨inner, stop, closed, -⟩ := Scan.Divides.closed scanned
  cases tokens : input.tokens.toList with
  | nil => simp [closed] at tokens
  | cons next after => exact ⟨[], next, after, tokens, rfl, .inr rfl⟩

/-- From where a cursor is at a token, the end of the source is still to be read. -/
theorem Input.At.unread {input : Input} {cursor : Cursor} (place : input.At cursor)
    (scanned : input.Scanned) :
    ∃ token ∈ input.tokens.toList.drop cursor.index, token.kind = .eof := by
  obtain ⟨before, next, after, stands⟩ := place
  obtain ⟨inner, stop, closed, -⟩ := Scan.Divides.closed scanned
  have inside := stands.index_lt
  rw [← Array.length_toList, closed, List.length_append, List.length_singleton] at inside
  refine ⟨⟨.eof, [], ⟨stop, stop⟩⟩, ?_, rfl⟩
  rw [closed, List.drop_append_of_le_length (by omega)]
  exact List.mem_append_right _ (.head _)

/-! ## How much can be consumed -/

/-- More than how often something can still be consumed: each token, and the blanks before it. -/
def Input.ahead (input : Input) (cursor : Cursor) : Nat :=
  2 * (input.tokens.size - cursor.index) +
    if (input.tokenAt? cursor.index).any fun token =>
      decide (Parser.StartsAt token cursor) then 0 else 1

/-- What is ahead is less than the bound of every repetition. -/
theorem Input.ahead_lt (input : Input) (cursor : Cursor) :
    input.ahead cursor < 2 * input.tokens.size + 2 := by
  unfold ahead
  split <;> omega

/-- Consuming something leaves less ahead. -/
theorem Input.Stands.ahead_lt {input : Input} {cursor cursor' : Cursor}
    {before after before' after' : List Token} {next next' : Token} (scanned : input.Scanned)
    (stands : input.Stands cursor before next after)
    (stands' : input.Stands cursor' before' next' after')
    (le : cursor.position.offset ≤ cursor'.position.offset)
    (moved : cursor'.movedFrom cursor = true) : input.ahead cursor' < input.ahead cursor := by
  have inside := stands.index_lt
  have notEarlier := stands.index_le scanned stands' le
  have differs := (stands.movedFrom_iff scanned stands').mp moved
  by_cases sameIndex : cursor.index = cursor'.index
  · obtain ⟨rfl, rfl, rfl⟩ := stands.unique stands' sameIndex
    have upper := (stands'.bounds scanned).2
    have notAtStart : ¬ Parser.StartsAt next cursor := by
      show ¬ next.span.start.offset = cursor.position.offset
      omega
    have atStart : Parser.StartsAt next cursor' := by
      rcases stands'.position with atStart | atStop
      · exact congrArg Position.offset atStart.symm
      · rcases stands.position with early | early
        · exact absurd (congrArg Position.offset early.symm) notAtStart
        · rw [early, atStop] at differs
          exact absurd rfl differs
    simp only [ahead, stands'.tokenAt?, Option.any_some, sameIndex, notAtStart, atStart,
      decide_true, decide_false, if_true, Bool.false_eq_true, if_false]
    omega
  · unfold ahead
    split <;> split <;> omega

end Marginalia
