import Marginalia.Proofs.Blanking.Tokens
import Marginalia.Proofs.Lockstep.Module
import Marginalia.Proofs.Scan.Partition

/-!
# A source below another one

When one source is put on the lines below another one, the whole divides into the tokens of both,
those of the second one further down. From the first solid token of the second source on, the whole
corresponds to it.
-/

namespace Marginalia

open Marginalia.Parser

/-! ## Places below a source -/

/-- How a text is looked at that stands on the lines below a source. -/
def View.below (source : Text) : View :=
  ⟨fun position => ⟨position.offset + (source.length + 1),
    position.line + (source.count Text.newline + 1), position.column⟩, true⟩

namespace View

variable (source : Text)

/-- Below a source a step leads as far as without it. -/
theorem below_step (position : Position) (u : CodeUnit) :
    (below source).position (position.step u) = ((below source).position position).step u := by
  unfold Position.step
  split <;> simp [below] <;> omega

/-- Below a source a text leads as far as without it. -/
theorem below_advance (position : Position) (text : Text) :
    (below source).position (position.advance text) =
      ((below source).position position).advance text := by
  induction text generalizing position with
  | nil => rfl
  | cons u rest ih =>
    have further := ih (position.step u)
    rw [below_step] at further
    exact further

/-- Below a source its text and a line break stand before the start. -/
theorem below_start :
    (below source).position .start = (Position.start.advance source).step Text.newline := by
  have place := Position.advance_start source []
  rw [place, Position.ofOffset, List.append_nil, List.take_length]
  simp [below, Position.start, Position.step]
  omega

end View

/-! ## Tokens -/

/-- What is seen of an error. -/
def ScanError.view (view : View) (error : ScanError) : ScanError :=
  ⟨error.fault, view.span error.span⟩

/-- An error is worded alike wherever it is looked at from. -/
theorem ScanError.message_view (view : View) (error : ScanError) :
    (error.view view).message = error.message := rfl

namespace Scan

/-- Below a source a text is scanned as it is without it, with the places of tokens and faults
moved. -/
theorem tokens_below (source : Text) (position : Position) (text : Text) :
    tokens ((View.below source).position position) text = ((tokens position text).map
      (List.map (Token.view (.below source)))).mapError (ScanError.view (.below source)) := by
  induction length : text.length using Nat.strongRecOn generalizing position text with
  | _ size ih =>
    subst length
    cases text with
    | nil =>
      rw [tokens, tokens]
      rfl
    | cons u rest =>
      by_cases blank : isBlank u = true
      · rw [tokens_blank blank, tokens_blank blank, ← View.below_step]
        exact ih rest.length (by simp) _ _ rfl
      · have solid : isBlank u = false := by simpa using blank
        cases read : front u rest with
        | error stop =>
          rw [tokens_fault solid read, tokens_fault solid read, ← View.below_advance]
          rfl
        | ok result =>
          obtain ⟨kind, taken⟩ := result
          obtain ⟨tail, after, rfl, rfl, -⟩ := front_takes read
          have shorter : after.length < (u :: (tail ++ after)).length := by
            simp only [List.length_cons, List.length_append]
            omega
          have further := ih after.length shorter (position.advance (u :: tail)) after rfl
          rw [tokens_token solid read, tokens_token solid read, ← View.below_advance, further]
          cases tokens (position.advance (u :: tail)) after <;> rfl

/-- Below a source a text divides into its tokens. -/
theorem Divides.shifted (source : Text) {position : Position} {text : Text} {found : List Token}
    (divides : Divides position text found) :
    Divides ((View.below source).position position) text
      (found.map (Token.view (.below source))) := by
  have moved := tokens_below source position text
  rw [divides.tokens] at moved
  exact divides_of_tokens moved

/-- Behind a text that divides into tokens and before the end of a line, scanning goes on as it does
from there alone. -/
theorem Divides.tokens_append {position : Position} {text rest : Text} {found : List Token}
    (divides : Divides position text found) (endsLine : ∀ u ∈ rest.head?, isLineEnd u = true) :
    ∃ inner, found = inner ++ [⟨.eof, [], ⟨position.advance text, position.advance text⟩⟩] ∧
      Scan.tokens position (text ++ rest) = (Scan.tokens (position.advance text) rest).map
      (inner ++ ·) := by
  have blank : ∀ u ∈ rest.head?, isBlank u = true := by
    intro u first
    have ends := endsLine u first
    simp only [isLineEnd, Bool.or_eq_true, beq_iff_eq] at ends
    rcases ends with rfl | rfl <;> decide
  induction divides with
  | done position =>
    refine ⟨[], rfl, ?_⟩
    show Scan.tokens position rest = (Scan.tokens position rest).map _
    cases Scan.tokens position rest <;> rfl
  | blank isBlank _ ih =>
    obtain ⟨inner, same, whole⟩ := ih
    refine ⟨inner, same, ?_⟩
    rw [List.cons_append, tokens_blank isBlank, whole]
    rfl
  | @token position u tail after kind found solid read _ ih =>
    obtain ⟨inner, rfl, whole⟩ := ih
    obtain ⟨tail', after', same, length, token⟩ := front_takes read
    obtain ⟨rfl, rfl⟩ := List.append_inj same (by omega)
    have boundary : Boundary after (after ++ rest) := by
      refine ⟨?_, fun opens => .inl ?_⟩
      · have ends : Fades [] rest := .stops blank
        have fades := ends.append after
        rwa [List.append_nil] at fades
      · obtain ⟨inside, rfl⟩ := (opensWith_iff _ _).mp opens
        rw [List.append_assoc]
        exact opensWith_append _ _
    have stays := token.stays (after ++ rest) boundary fun isLine v first => ?_
    · have place : position.advance (u :: (tail ++ after)) =
          (position.advance (u :: tail)).advance after :=
        position.advance_append (u :: tail) after
      rw [place, List.cons_append, List.append_assoc, tokens_token solid stays, whole]
      refine ⟨_ :: inner, rfl, ?_⟩
      cases Scan.tokens ((position.advance (u :: tail)).advance after) rest <;> rfl
    · cases after with
      | nil => exact endsLine v first
      | cons w others =>
        subst isLine
        exact endsLine_of_line read v first

/-- A source that divides into tokens stands before its end, and a text below it is scanned as it is
alone. -/
theorem Divides.tokens_joined {source : Text} {found : List Token}
    (divides : Divides .start source found) (other : Text) :
    ∃ inner, found = inner ++
      [⟨.eof, [], ⟨Position.start.advance source, Position.start.advance source⟩⟩] ∧
      Scan.tokens .start (source ++ Text.newline :: other) =
      (((Scan.tokens .start other).map (List.map (Token.view (.below source)))).mapError
      (ScanError.view (.below source))).map (inner ++ ·) := by
  have endsLine : ∀ u ∈ (Text.newline :: other).head?, isLineEnd u = true := by simp [isLineEnd]
  obtain ⟨inner, split, whole⟩ := divides.tokens_append endsLine
  rw [tokens_blank (by decide), ← View.below_start, tokens_below] at whole
  exact ⟨inner, split, whole⟩

/-- A source and another one below it divide into the tokens of both, without the end of the first
one. -/
theorem Divides.joined {source other : Text} {found more : List Token}
    (divides : Divides .start source found) (further : Divides .start other more) :
    ∃ inner, found = inner ++
      [⟨.eof, [], ⟨Position.start.advance source, Position.start.advance source⟩⟩] ∧ Divides .start
      (source ++ Text.newline :: other) (inner ++ more.map (Token.view (.below source))) := by
  obtain ⟨inner, split, whole⟩ := divides.tokens_joined other
  rw [further.tokens] at whole
  exact ⟨inner, split, divides_of_tokens whole⟩

end Scan

/-- Behind a source that is scanned and a line break, every other source is scanned as it is alone:
its tokens stand behind those of the first source, without the end of that one, and a fault in it is
told in the same words; the places of both are as many code units and lines further on. -/
theorem scan_joined {upper : Text} {above : List Token}
    (scanned : Token.scan upper = .ok above) (lower : Text) :
    above = above.dropLast ++
      [⟨.eof, [], ⟨Position.start.advance upper, Position.start.advance upper⟩⟩] ∧
    (∀ below, Token.scan lower = .ok below → Token.scan (upper ++ Text.newline :: lower) = .ok
      (above.dropLast ++ below.map (Token.view (.below upper)))) ∧
    ∀ error, Token.scan lower = .error error → ∃ moved,
      Token.scan (upper ++ Text.newline :: lower) = .error moved ∧ moved.message = error.message ∧
      moved.span = (View.below upper).span error.span := by
  have divides := (Scan.scan_eq_ok_iff upper above).mp scanned
  obtain ⟨inner, rfl, whole⟩ := divides.tokens_joined lower
  rw [List.dropLast_concat]
  refine ⟨rfl, fun below found => ?_, fun error fault =>
      ⟨error.view (.below upper), ?_, error.message_view _, rfl⟩⟩
  · have found : Scan.tokens .start lower = .ok below := found
    rw [found] at whole
    exact whole
  · have fault : Scan.tokens .start lower = .error error := fault
    rw [fault] at whole
    exact whole

/-- Below a name and a comment that runs up to the line break, a name is found on the second line,
and so is the fault of a quotation mark that is not closed. -/
theorem comment_joined :
    Token.scan "a --b
c" = .ok [⟨.lowerIdentifier, "a", ⟨⟨0, 1, 1⟩, ⟨1, 1, 2⟩⟩⟩,
        ⟨.lineComment, "--b", ⟨⟨2, 1, 3⟩, ⟨5, 1, 6⟩⟩⟩,
        ⟨.lowerIdentifier, "c", ⟨⟨6, 2, 1⟩, ⟨7, 2, 2⟩⟩⟩, ⟨.eof, "", ⟨⟨7, 2, 2⟩, ⟨7, 2, 2⟩⟩⟩] ∧
      ∃ moved, Token.scan "a --b
\"c" = .error moved ∧ moved.message = "Unterminated string literal" ∧
        moved.span = ⟨⟨6, 2, 1⟩, ⟨8, 2, 3⟩⟩ := by
  have scanned : Token.scan "a --b" = .ok [⟨.lowerIdentifier, "a", ⟨⟨0, 1, 1⟩, ⟨1, 1, 2⟩⟩⟩,
        ⟨.lineComment, "--b", ⟨⟨2, 1, 3⟩, ⟨5, 1, 6⟩⟩⟩, ⟨.eof, "", ⟨⟨5, 1, 6⟩, ⟨5, 1, 6⟩⟩⟩] := by
    decide +kernel
  obtain ⟨-, found, -⟩ := scan_joined scanned "c"
  obtain ⟨-, -, fault⟩ := scan_joined scanned "\"c"
  exact ⟨found [⟨.lowerIdentifier, "c", ⟨⟨0, 1, 1⟩, ⟨1, 1, 2⟩⟩⟩,
    ⟨.eof, "", ⟨⟨1, 1, 2⟩, ⟨1, 1, 2⟩⟩⟩] (by decide +kernel),
    fault ⟨.unterminatedLiteral .string, ⟨⟨0, 1, 1⟩, ⟨2, 1, 3⟩⟩⟩ (by decide +kernel)⟩

/-! ## Cursors -/

/-- A cursor of the lower source as one of the whole, in which some tokens stand before. -/
def Cursor.below (source : Text) (above : Nat) (cursor : Cursor) : Cursor :=
  ⟨above + cursor.index, (View.below source).position cursor.position, cursor.indentation⟩

/-- The whole holds the lower input behind some tokens of a source. -/
structure Input.Below (source : Text) (above : List Token) (left right : Input) : Prop where
  /-- The tokens of the lower input stand behind those. -/
  tokens : left.tokens.toList = above ++ right.tokens.toList.map (Token.view (.below source))
  /-- The lower source stands on the lines below the other one. -/
  source : left.source = source ++ Text.newline :: right.source

/-- The cursor is at a token of the input, behind blanks or behind another token. -/
def Input.Below.Inside (right : Input) (cursor : Cursor) : Prop :=
  ∃ before next after, right.tokens.toList = before ++ next :: after ∧
    cursor.index = before.length ∧
    (cursor.position = next.span.start ∨ before ≠ [] ∧ cursor.position = stopAfter .start before)

/-- Tokens that are viewed stop where their stop is viewed. -/
theorem stopAfter_map (view : View) (position : Position) (tokens : List Token) :
    stopAfter (view.position position) (tokens.map (Token.view view)) = view.position
      (stopAfter position tokens) := by
  induction tokens generalizing position with
  | nil => rfl
  | cons token rest ih => exact ih token.span.stop

/-- A stretch of the lower source is one of the whole. -/
theorem Text.slice_below (source other : Text) (start stop : Nat) :
    (source ++ Text.newline :: other).slice (start + (source.length + 1))
      (stop + (source.length + 1)) = other.slice start stop := by
  have drop :
      (source ++ Text.newline :: other).drop (start + (source.length + 1)) = other.drop start := by
    rw [show start + (source.length + 1) = source.length + (start + 1) by omega, ← List.drop_drop,
      List.drop_left]
    rfl
  rw [Text.slice, Text.slice, drop]
  congr 1
  omega

namespace Input.Below

variable {source : Text} {above : List Token} {left right : Input} {cursor : Cursor}

/-- A cursor inside of the lower input is at a token there and in the whole. -/
theorem stands (below : left.Below source above right) (inside : Inside right cursor) :
    ∃ before next after, right.Stands cursor before next after ∧ left.Stands
      (cursor.below source above.length) (above ++ before.map (Token.view (.below source)))
      (next.view (.below source)) (after.map (Token.view (.below source))) := by
  obtain ⟨before, next, after, tokens, index, place⟩ := inside
  refine ⟨before, next, after, ⟨tokens, index, place.imp id And.right⟩, ?_, ?_, ?_⟩
  · rw [below.tokens, tokens]
    simp
  · simp [Cursor.below, index]
  · rcases place with start | ⟨some, stop⟩
    · exact .inl (congrArg (View.below source).position start)
    · refine .inr ?_
      obtain ⟨first, rest, rfl⟩ := List.exists_cons_of_ne_nil some
      have stops := stopAfter_map (.below source) first.span.stop rest
      rw [stopAfter_append]
      exact (congrArg (View.below source).position stop).trans stops.symm

/-- Behind a token that is read the cursor is inside. -/
theorem past_inside (scanned : right.Scanned) {token : Token} (inside : Inside right cursor)
    (found : right.tokenAt? cursor.index = some token) (notEnd : token.kind ≠ .eof) :
    Inside right (past token cursor) := by
  obtain ⟨before, next, after, tokens, index, place⟩ := inside
  have stands : right.Stands cursor before next after := ⟨tokens, index, place.imp id And.right⟩
  obtain rfl := Option.some.inj (stands.tokenAt?.symm.trans found)
  obtain ⟨second, rest, rfl, behind, -⟩ := stands.past scanned notEnd
  refine ⟨before ++ [next], second, rest, behind.tokens, behind.index, .inr ⟨by simp, ?_⟩⟩
  rw [stopAfter_append]
  rfl

/-- Blanks and comments are passed over in the whole as in the lower input. -/
theorem whitespace (below : left.Below source above right) (scanned : right.Scanned)
    (inside : Inside right cursor) :
    ∃ comments stop, Parser.whitespace right cursor = .done comments stop ∧ Parser.whitespace left
      (cursor.below source above.length) = .done comments (stop.below source above.length) ∧
      Inside right stop := by
  obtain ⟨before, next, after, stands, standsLeft⟩ := below.stands inside
  obtain ⟨comments, solid, rest, split, areComments, notComment⟩ := stands.split_comments scanned
  have tokens : right.tokens.toList = before ++ (comments ++ solid :: rest) := by
    rw [stands.tokens, split]
  have tokensLeft : left.tokens.toList = (above ++ before.map (Token.view (.below source))) ++
        (comments.map (Token.view (.below source)) ++ solid.view (.below source) ::
        rest.map (Token.view (.below source))) := by
    rw [below.tokens, tokens]
    simp
  have commentsLeft :
      ∀ token ∈ comments.map (Token.view (.below source)), token.isComment = true := by
    rw [List.forall_mem_map]
    exact areComments
  refine ⟨_, _, whitespace_apply tokens stands.index areComments notComment, ?_, ?_⟩
  · rw [whitespace_apply tokensLeft standsLeft.index commentsLeft notComment, List.map_map]
    congr 1
    simp [Cursor.below, Token.view, View.span, Nat.add_assoc]
  · exact ⟨before ++ comments, solid, rest, by rw [tokens, List.append_assoc], by simp, .inl rfl⟩

/-- The whole corresponds to the lower input, looked at as it stands there. -/
def correspondence (below : left.Below source above right) (scannedLeft : left.Scanned)
    (scannedRight : right.Scanned) : Correspondence left right where
  leftView := .full
  rightView := .below source
  Along := fun l r => l = r.below source above.length ∧ Inside right r
  Found := fun _ _ => True
  scannedLeft := scannedLeft
  scannedRight := scannedRight
  size_le := by
    rw [← Array.length_toList, ← Array.length_toList, below.tokens, List.length_append,
      List.length_map]
    exact Nat.le_add_left _ _
  standsLeft := by
    rintro l r ⟨rfl, inside⟩
    obtain ⟨before, next, after, -, standsLeft⟩ := below.stands inside
    exact ⟨_, _, _, standsLeft⟩
  standsRight := by
    rintro l r ⟨rfl, inside⟩
    obtain ⟨before, next, after, stands, -⟩ := below.stands inside
    exact ⟨_, _, _, stands⟩
  indentation := by
    rintro l r ⟨rfl, -⟩
    rfl
  reindent := by
    rintro l r ⟨rfl, inside⟩ levels
    exact ⟨rfl, inside⟩
  position := by
    rintro l r ⟨rfl, -⟩
    rfl
  column := by
    rintro l r ⟨rfl, -⟩
    rfl
  offset := by
    rintro l r l' r' ⟨rfl, -⟩ ⟨rfl, -⟩
    exact Nat.add_right_cancel_iff
  crossed := by
    rintro l r l' r' ⟨rfl, -⟩ ⟨rfl, -⟩
    rw [below.source]
    exact congrArg Text.hasNewline (Text.slice_below source right.source _ _)
  sees := by
    rintro l r t t' ⟨rfl, inside⟩ found found'
    obtain ⟨before, next, after, stands, standsLeft⟩ := below.stands inside
    obtain rfl := Option.some.inj (stands.tokenAt?.symm.trans found')
    obtain rfl := Option.some.inj (standsLeft.tokenAt?.symm.trans found)
    exact ⟨trivial, .inl ⟨rfl, Nat.add_right_cancel_iff⟩⟩
  past := by
    rintro l r t t' ⟨rfl, inside⟩ found found' same - - notEnd
    obtain ⟨before, next, after, stands, standsLeft⟩ := below.stands inside
    obtain rfl := Option.some.inj (stands.tokenAt?.symm.trans found')
    obtain rfl := Option.some.inj (standsLeft.tokenAt?.symm.trans found)
    exact ⟨rfl, past_inside scannedRight inside found' notEnd⟩
  skips := by
    rintro l r l' r' comments comments' ⟨rfl, inside⟩ run run'
    obtain ⟨_, stop, runRight, runLeft, behind⟩ := below.whitespace scannedRight inside
    obtain ⟨rfl, rfl⟩ := Outcome.done.inj (runRight.symm.trans run')
    obtain ⟨rfl, rfl⟩ := Outcome.done.inj (runLeft.symm.trans run)
    exact ⟨rfl, rfl, behind⟩

/-- Declarations of the lower source are read in the whole as they are there, further down. -/
theorem declarations (below : left.Below source above right) (scannedLeft : left.Scanned)
    (scannedRight : right.Scanned) (inside : Inside right cursor) {bound bound' : Nat}
    {entries : List (Located TopLevel)} {stop : Cursor}
    (enough : right.tokens.size - cursor.index < bound)
    (enough' : right.tokens.size - cursor.index < bound')
    (run : Grammar.declarationsUpTo bound' right cursor = .done entries stop) :
    Grammar.declarationsUpTo bound left (cursor.below source above.length) =
      .done (Grammar.entriesView (.below source) entries) (stop.below source above.length) ∧
    Inside right stop := by
  let c := below.correspondence scannedLeft scannedRight
  have settled : c.Settled (cursor.below source above.length) cursor := by
    obtain ⟨before, next, after, stands, standsLeft⟩ := below.stands inside
    exact ⟨_, _, standsLeft.tokenAt?, stands.tokenAt?, rfl⟩
  have meets := Grammar.declarationsUpTo_meets (c := c) _ bound bound' ⟨rfl, inside⟩ settled
    (Nat.le_refl _) enough enough'
  rw [run] at meets
  generalize Grammar.declarationsUpTo bound left (cursor.below source above.length) =
    outcome at meets
  cases meets with
  | @done found _ l _ leads =>
    obtain ⟨rfl, behind⟩ := leads.along
    have same : Grammar.entriesView .full found = Grammar.entriesView (.below source) entries :=
      leads.same
    have seen : Grammar.entriesView .full found = found := Located.viewAll_full fun entry _ =>
      entry.value.view?_full
    exact ⟨by rw [← same, seen], behind⟩

end Input.Below

end Marginalia
