import Marginalia.Proofs.Spelling.Module

/-!
# What parsing keeps of a source

A tree and its source say the same: the comments of the tree are the comments of the source, none
lost, repeated, moved or altered, and the other tokens of the source are the words of the tree.
-/

namespace Marginalia

open Marginalia.Parser

variable {α β ε : Type} {input : Input} {source : Text}

/-! ## Comments and their tokens -/

/-- The lines of a text joined by line breaks are the text. -/
theorem intercalate_split (separator : CodeUnit) (text : Text) :
    [separator].intercalate (text.split separator) = text := by
  induction text with
  | nil => rfl
  | cons u rest ih =>
    obtain ⟨piece, pieces, same⟩ := List.exists_cons_of_ne_nil (Text.split_ne_nil separator rest)
    rw [same] at ih
    unfold Text.split
    split
    · rename_i isSeparator
      rw [same, List.intercalate_cons_cons, ih, isSeparator]
      rfl
    · rw [same]
      cases pieces with
      | nil =>
        rw [List.intercalate_singleton] at ih ⊢
        rw [ih]
      | cons next others =>
        rw [List.intercalate_cons_cons] at ih ⊢
        rw [← ih]
        rfl

/-- A comment renders as the token that it was made of. -/
theorem render_ofToken {token : Token} (isComment : token.isComment = true)
    (shape : Scan.Shape token.kind token.lexeme) :
    (Comment.ofToken token).render = token.lexeme := by
  obtain ⟨kind, lexeme, span⟩ := token
  cases kind with
  | lineComment =>
    obtain ⟨body, rfl⟩ := shape
    rfl
  | blockComment =>
    obtain ⟨body, rfl⟩ := shape
    have inside := Grammar.trimEnds_append (Text.ofString "\x7b-") body (Text.ofString "-\x7d")
    have split := intercalate_split Text.newline body
    rw [show (Text.ofString "\x7b-").length = 2 from rfl,
      show (Text.ofString "-\x7d").length = 2 from rfl] at inside
    rw [Comment.ofToken, inside, Comment.render, Text.lines, split]
  | _ => cases isComment

/-! ## Runs to the end of the source -/

/-- A parser that only succeeds at the end of the source. -/
def ReachesEnd (parser : Parser α) : Prop :=
  ∀ input start value stop, parser input start = .done value stop →
    ∃ token, input.tokenAt? stop.index = some token ∧ token.kind = .eof

/-- A sequence reaches the end if what follows its first parser does. -/
theorem ReachesEnd.after {parser : Parser α} {next : α → Parser β}
    (reaches : ∀ value, ReachesEnd (next value)) : ReachesEnd (parser >>= next) := by
  intro input start result stop run
  obtain ⟨value, middle, -, further⟩ := bind_done.mp run
  exact reaches value input middle result stop further

/-- Looking for the end reaches the end. -/
theorem reachesEnd_eof (value : α) : ReachesEnd (do eof; return value) := by
  intro input start result stop run
  obtain ⟨_, middle, atEnd, done⟩ := bind_done.mp run
  obtain ⟨token, found, isEnd, rfl⟩ := eof_done atEnd
  obtain ⟨-, rfl⟩ := Outcome.done.inj done
  exact ⟨token, found, isEnd⟩

/-- What stands alone in a source is followed by its end. -/
theorem whole_reachesEnd (parser : Parser α) : ReachesEnd (Grammar.whole parser) :=
  .after fun _ => .after fun _ => .after fun _ => reachesEnd_eof _

/-- A source file is read to its end. -/
theorem module_reachesEnd : ReachesEnd Grammar.module :=
  .after fun _ => .after fun _ => .after fun _ => .after fun _ => .after fun _ => reachesEnd_eof _

/-- A source that is read has tokens, and the parser succeeds on them. -/
theorem run_eq_ok {parser : Parser α} {value : α} (read : parser.run source = .ok value) :
    ∃ input stop, input.source = source ∧ Token.scan source = .ok input.tokens.toList ∧
      parser input .start = .done value stop := by
  rw [Parser.run] at read
  cases scanned : Input.ofSource? source with
  | error error => simp [scanned] at read
  | ok input =>
    obtain ⟨same, scan⟩ := Input.ofSource?_eq_ok.mp scanned
    cases run : parser input .start with
    | done result stop =>
      simp only [scanned, run] at read
      obtain rfl := Except.ok.inj read
      exact ⟨input, stop, same, scan, run⟩
    | failed failure stop => cases failure <;> simp [scanned, run] at read

/-- A source that is read to its end has the comments of the value and spells its words. -/
theorem spelled_of_run {parser : Parser α} {allComments : α → Comments} {allWords : α → List Word}
    (reads : ∀ {input : Input}, input.Scanned → Reads input parser allComments allWords)
    (reachesEnd : ReachesEnd parser) {value : α} (read : parser.run source = .ok value) :
    ∃ tokens, Token.scan source = .ok tokens ∧ allComments value = commentsOf tokens ∧
      Spelled (allWords value) (solidOf tokens) := by
  obtain ⟨input, stop, same, scan, run⟩ := run_eq_ok read
  have scanned := Input.Scanned.of_scan same scan
  obtain ⟨passed, split, comments, spelled⟩ := reads_iff.mp (reads scanned) .start value stop run
  obtain ⟨token, found, isEnd⟩ := reachesEnd input .start value stop run
  -- Whatever is left at the end of the source is neither a comment nor a word.
  have left := scanned.drop_of_eof found isEnd
  have noComments : commentsOf (input.tokens.toList.drop stop.index) = [] := by
    rw [commentsOf, List.filter_eq_nil_iff.mpr, List.map_nil]
    intro token member
    simp [Token.isComment, left token member, TokenKind.isComment]
  have noWords : solidOf (input.tokens.toList.drop stop.index) = [] :=
    List.filter_eq_nil_iff.mpr fun token member => by simp [left token member]
  rw [show Cursor.start.index = 0 from rfl, List.drop_zero] at split
  refine ⟨input.tokens.toList, scan, ?_, ?_⟩
  · rw [split, commentsOf_append, noComments, List.append_nil, comments]
  · rw [split, solidOf_append, noWords, List.append_nil]
    exact spelled

/-- A source file that is read has the comments of its module and spells its words. -/
theorem module_spelled {module : Module} (read : Module.parse source = .ok module) :
    ∃ tokens, Token.scan source = .ok tokens ∧ module.allComments = commentsOf tokens ∧
      Spelled module.words (solidOf tokens) :=
  spelled_of_run Grammar.module_reads module_reachesEnd read

/-- A source that is read as one thing has the comments in and around it and spells its words. -/
theorem whole_spelled {parser : Parser α} {allComments : α → Comments} {allWords : α → List Word}
    (reads : ∀ {input : Input}, input.Scanned → Reads input parser allComments allWords)
    {found : Commented α} (read : (Grammar.whole parser).run source = .ok found) :
    ∃ tokens, Token.scan source = .ok tokens ∧ found.allComments allComments = commentsOf tokens ∧
      Spelled (allWords found.value) (solidOf tokens) :=
  spelled_of_run (fun scanned => Grammar.whole_reads (reads scanned)) (whole_reachesEnd parser) read

/-! ## Main statements -/

/-- The comments are those of the source's comment tokens, in order, and each renders as its
token. -/
def KeepsComments (source : Text) (comments : Comments) : Prop :=
  ∃ tokens, Token.scan source = .ok tokens ∧ comments = commentsOf tokens ∧
    comments.map Comment.render = (tokens.filter (·.isComment)).map (·.lexeme)

/-- The words are spelled by the tokens of the source other than comments, in order. -/
def KeepsWords (source : Text) (words : List Word) : Prop :=
  ∃ tokens, Token.scan source = .ok tokens ∧ Spelled words (solidOf tokens)

/-- A source that has the comments and spells the words keeps both, for its comments render as their
tokens. -/
theorem keeps_of_spelled {comments : Comments} {words : List Word} (spelled : ∃ tokens, Token.scan
      source = .ok tokens ∧ comments = commentsOf tokens ∧ Spelled words (solidOf tokens)) :
    KeepsComments source comments ∧ KeepsWords source words := by
  obtain ⟨tokens, scan, rfl, spelled⟩ := spelled
  refine ⟨⟨tokens, scan, rfl, ?_⟩, tokens, scan, spelled⟩
  have shapes := ((Scan.scan_eq_ok_iff source tokens).mp scan).shape
  rw [commentsOf, List.map_map]
  refine List.map_congr_left fun token member => ?_
  obtain ⟨inTokens, isComment⟩ := List.mem_filter.mp member
  exact render_ofToken isComment (shapes token inTokens)

/-- Parsing keeps every comment: the comments of a module, expression, pattern or type are those of
its source. -/
theorem parse_keeps_comments (source : Text) :
    (∀ module, Module.parse source = .ok module → KeepsComments source module.allComments) ∧
    (∀ expression, Expression.parse source = .ok expression →
      KeepsComments source (expression.allComments Expression.allComments)) ∧
    (∀ pattern, Pattern.parse source = .ok pattern →
      KeepsComments source (pattern.allComments Pattern.allComments)) ∧
    (∀ type, TypeExpression.parse source = .ok type →
      KeepsComments source (type.allComments TypeExpression.allComments)) := by
  refine ⟨fun module read => ?_, fun expression read => ?_, fun pattern read => ?_,
    fun type read => ?_⟩
  · exact (keeps_of_spelled (module_spelled read)).1
  · exact (keeps_of_spelled (whole_spelled Grammar.expression_reads read)).1
  · exact (keeps_of_spelled (whole_spelled Grammar.pattern_reads read)).1
  · exact (keeps_of_spelled (whole_spelled Grammar.typeExpression_reads read)).1

/-- A module with a comment at each of several places keeps them all. -/
theorem commented_module_keeps_comments :
    ∃ module, Module.parse
      "\x7b-a-\x7dmodule M exposing(..)--b\nf\x7b-c-\x7dx=let--d\n y=1\n in\x7b-e-\x7dy--f" =
      .ok module ∧ KeepsComments
      "\x7b-a-\x7dmodule M exposing(..)--b\nf\x7b-c-\x7dx=let--d\n y=1\n in\x7b-e-\x7dy--f"
      module.allComments := by
  obtain ⟨module, read⟩ := ok_of_isOk (show (Module.parse
      "\x7b-a-\x7dmodule M exposing(..)--b\nf\x7b-c-\x7dx=let--d\n y=1\n in\x7b-e-\x7dy--f").isOk =
      true by decide +kernel)
  exact ⟨module, read, (parse_keeps_comments _).1 module read⟩

end Marginalia
