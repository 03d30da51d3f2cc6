import Marginalia.Proofs.Blanking.Tokens
import Marginalia.Proofs.Lockstep.Module

/-!
# Trees of blanked sources

A source and the same source with blanks in place of its comments correspond: a run on the one and a
run on the other are at the same position at any time, and where the first one reads comments the
second one passes over blanks. So the comments of a source change nothing in its tree but the
comments.
-/

namespace Marginalia

open Marginalia.Parser

/-! ## Cursors in both inputs -/

/-- The cursors are at one place: the left one before some comments and a token, the right one
before that token. -/
structure AbreastAt (left : Input) (l r : Cursor) (before comments : List Token) (solid : Token)
    (rest : List Token) : Prop where
  /-- The left tokens are these. -/
  tokens : left.tokens.toList = before ++ (comments ++ solid :: rest)
  /-- Comments follow on the left. -/
  areComments : ∀ token ∈ comments, token.isComment = true
  /-- The token behind them is none. -/
  notComment : solid.isComment = false
  /-- The left tokens before the cursor were read. -/
  indexLeft : l.index = before.length
  /-- The right tokens before the cursor were read. -/
  indexRight : r.index = (solidTokens before).length
  /-- The positions are the same. -/
  position : r.position = l.position
  /-- The references of indentation are the same. -/
  indentation : r.indentation = l.indentation
  /-- The source has been consumed up to the token, or up to the last one that was read. -/
  place : (comments = [] ∧ l.position = solid.span.start) ∨
    (l.position = stopAfter .start before ∧ l.position = stopAfter .start (solidTokens before))

/-- Comments leave no tokens. -/
theorem solidTokens_comments {comments : List Token}
    (areComments : ∀ token ∈ comments, token.isComment = true) : solidTokens comments = [] := by
  simpa [solidTokens] using areComments

/-- The tokens of two runs that are no comments follow one another. -/
theorem solidTokens_append (first second : List Token) :
    solidTokens (first ++ second) = solidTokens first ++ solidTokens second :=
  List.filter_append first second

namespace AbreastAt

variable {left right : Input} {l r : Cursor} {before comments rest : List Token} {solid : Token}

/-- The left cursor stands at the first comment, or at the token. -/
theorem standsLeft (along : AbreastAt left l r before comments solid rest) :
    ∃ next after, next :: after = comments ++ solid :: rest ∧ left.Stands l before next after := by
  have tokens := along.tokens
  have place := along.place
  cases comments with
  | nil =>
    refine ⟨solid, rest, rfl, tokens, along.indexLeft, ?_⟩
    rcases place with ⟨-, start⟩ | ⟨stop, -⟩
    · exact .inl start
    · exact .inr stop
  | cons first others =>
    refine ⟨first, others ++ solid :: rest, rfl, tokens, along.indexLeft, ?_⟩
    rcases place with ⟨none, -⟩ | ⟨stop, -⟩
    · cases none
    · exact .inr stop

/-- The right tokens go on with the token. -/
theorem tokensRight (along : AbreastAt left l r before comments solid rest)
    (same : right.tokens.toList = solidTokens left.tokens.toList) :
    right.tokens.toList = solidTokens before ++ solid :: solidTokens rest := by
  rw [same, along.tokens, solidTokens_append, solidTokens_append,
    solidTokens_comments along.areComments, solidTokens_solid along.notComment, List.nil_append]

/-- The right cursor stands at the token. -/
theorem standsRight (along : AbreastAt left l r before comments solid rest)
    (same : right.tokens.toList = solidTokens left.tokens.toList) :
    right.Stands r (solidTokens before) solid (solidTokens rest) := by
  refine ⟨along.tokensRight same, along.indexRight, ?_⟩
  rw [along.position]
  rcases along.place with ⟨-, start⟩ | ⟨-, stop⟩
  · exact .inl start
  · exact .inr stop

/-- The right run sees the token next, and the left one the first of the comments before it or else
the token. -/
theorem next_eq (along : AbreastAt left l r before comments solid rest)
    (same : right.tokens.toList = solidTokens left.tokens.toList) {t t' : Token}
    (found : left.tokenAt? l.index = some t) (found' : right.tokenAt? r.index = some t') :
    t' = solid ∧ t = comments.headD solid := by
  obtain ⟨next, after, split, stands⟩ := along.standsLeft
  obtain rfl : next = t := Option.some.inj (stands.tokenAt?.symm.trans found)
  refine ⟨Option.some.inj (found'.symm.trans (along.standsRight same).tokenAt?), ?_⟩
  cases comments with
  | nil => exact (List.cons.inj split).1
  | cons first others => exact (List.cons.inj split).1

/-- Where comments follow on the left, blanks stand before the token on the right. -/
theorem not_startsAt (along : AbreastAt left l r before comments solid rest)
    (scanned : left.Scanned) (some : comments ≠ []) : ¬ StartsAt solid r := by
  obtain ⟨next, after, split, stands⟩ := along.standsLeft
  cases comments with
  | nil => exact absurd rfl some
  | cons first others =>
    obtain ⟨rfl, rfl⟩ := List.cons.inj split
    have upper := (stands.bounds scanned).2
    cases stands.ordered scanned with
    | cons gap wide strict further =>
      have wider := strict (by simp)
      have start := further.start_le solid (by simp)
      show ¬ solid.span.start.offset = r.position.offset
      rw [along.position]
      omega

/-- Both cursors can read the token, if no comments follow on the left. -/
theorem past (along : AbreastAt left l r before [] solid rest) (scanned : left.Scanned)
    (notEnd : solid.kind ≠ .eof) :
    ∃ comments solid' rest',
      AbreastAt left (past solid l) (past solid r) (before ++ [solid]) comments solid' rest' := by
  obtain ⟨next, after, split, stands⟩ := along.standsLeft
  obtain ⟨rfl, rfl⟩ := List.cons.inj split
  obtain ⟨second, others, -, stands', -⟩ := stands.past scanned notEnd
  obtain ⟨comments, solid', rest', split', areComments, notComment⟩ :=
    stands'.split_comments scanned
  have onlySolid : solidTokens [next] = [next] := solidTokens_solid along.notComment []
  refine ⟨comments, solid', rest', ?_, areComments, notComment, stands'.index, ?_, rfl,
    along.indentation, .inr ⟨?_, ?_⟩⟩
  · rw [stands'.tokens, split']
  · rw [solidTokens_append, onlySolid, List.length_append]
    exact congrArg (· + 1) along.indexRight
  · rw [stopAfter_append]
    rfl
  · rw [solidTokens_append, onlySolid, stopAfter_append]
    rfl

/-- Both cursors can go to the token. -/
theorem skip (along : AbreastAt left l r before comments solid rest) :
    AbreastAt left ⟨before.length + comments.length, solid.span.start, l.indentation⟩
      ⟨(solidTokens before).length, solid.span.start, r.indentation⟩ (before ++ comments)
      [] solid rest := by
  refine ⟨?_, by simp, along.notComment, by simp, ?_, rfl, along.indentation, .inl ⟨rfl, rfl⟩⟩
  · rw [along.tokens, List.nil_append, List.append_assoc]
  · rw [solidTokens_append, solidTokens_comments along.areComments, List.append_nil]

end AbreastAt

/-! ## The correspondence -/

/-- Texts that break lines at the same places do so in every stretch. -/
theorem hasNewline_slice_congr {text other : Text}
    (breaks : other.map (· == Text.newline) = text.map (· == Text.newline)) (start stop : Nat) :
    (text.slice start stop).hasNewline = (other.slice start stop).hasNewline := by
  have seen : ∀ t : Text, (t.slice start stop).hasNewline =
      (((t.map (· == Text.newline)).drop start).take (stop - start)).any id := by
    intro t
    rw [Text.slice, Text.hasNewline, List.contains_eq_any_beq, ← List.map_drop,
      ← List.map_take, List.any_map]
    congr 1
    funext u
    simp [BEq.comm]
  rw [seen, seen, breaks]

/-- The two cursors are at one place. -/
def Abreast (left : Input) (l r : Cursor) : Prop :=
  ∃ before comments solid rest, AbreastAt left l r before comments solid rest

section Laws

variable {left right : Input} {l r : Cursor}

/-- The next tokens are the same, or a comment on the left and blanks on the right hide them. -/
theorem Abreast.sees (scanned : left.Scanned)
    (same : right.tokens.toList = solidTokens left.tokens.toList) {t t' : Token}
    (along : Abreast left l r) (found : left.tokenAt? l.index = some t)
    (found' : right.tokenAt? r.index = some t') :
    (t = t' ∧ (StartsAt t l ↔ StartsAt t' r)) ∨ (Hidden t l ∧ Hidden t' r) := by
  obtain ⟨before, comments, solid, rest, along⟩ := along
  obtain ⟨rfl, rfl⟩ := along.next_eq same found found'
  cases comments with
  | nil =>
    refine .inl ⟨rfl, ?_⟩
    rw [StartsAt, StartsAt, along.position]
    rfl
  | cons first others =>
    exact .inr ⟨.inl (along.areComments _ (.head _)),
      .inr (along.not_startsAt scanned (List.cons_ne_nil _ _))⟩

/-- Both runs can read a token that is no comment. -/
theorem Abreast.past (scanned : left.Scanned)
    (same : right.tokens.toList = solidTokens left.tokens.toList) {t t' : Token}
    (along : Abreast left l r) (found : left.tokenAt? l.index = some t)
    (found' : right.tokenAt? r.index = some t') (solidFound : t.isComment = false)
    (notEnd : t.kind ≠ .eof) : Abreast left (Parser.past t l) (Parser.past t' r) := by
  obtain ⟨before, comments, solid, rest, along⟩ := along
  obtain ⟨rfl, rfl⟩ := along.next_eq same found found'
  cases comments with
  | nil => exact ⟨_, along.past scanned notEnd⟩
  | cons first others =>
    have comment := along.areComments first (.head _)
    exact absurd comment (by simpa using solidFound)

/-- Passing over blanks and comments finds no comments on the right and goes to one place. -/
theorem Abreast.skips (same : right.tokens.toList = solidTokens left.tokens.toList)
    {l' r' : Cursor} {comments comments' : Comments} (along : Abreast left l r)
    (run : whitespace left l = .done comments l') (run' : whitespace right r = .done comments' r') :
    comments' = [] ∧ Abreast left l' r' := by
  obtain ⟨before, between, solid, rest, along⟩ := along
  have runLeft := whitespace_apply along.tokens along.indexLeft along.areComments along.notComment
  have tokens : right.tokens.toList = solidTokens before ++ ([] ++ solid :: solidTokens rest) :=
    along.tokensRight same
  have runRight := whitespace_apply tokens along.indexRight (by simp) along.notComment
  obtain ⟨rfl, rfl⟩ := Outcome.done.inj (runLeft.symm.trans run)
  obtain ⟨rfl, rfl⟩ := Outcome.done.inj (runRight.symm.trans run')
  exact ⟨rfl, _, _, _, _, along.skip⟩

/-- Both runs begin at one place. -/
theorem Abreast.start (scanned : left.Scanned) : Abreast left .start .start := by
  obtain ⟨inner, stop, closed, -⟩ := Scan.Divides.closed scanned
  cases tokens : left.tokens.toList with
  | nil => simp [closed] at tokens
  | cons next after =>
    have stands : left.Stands .start [] next after := ⟨tokens, rfl, .inr rfl⟩
    obtain ⟨comments, solid, rest, split, areComments, notComment⟩ := stands.split_comments scanned
    exact ⟨[], comments, solid, rest, by rw [tokens, split]; rfl, areComments, notComment, rfl, rfl,
      rfl, rfl, .inr ⟨rfl, rfl⟩⟩

end Laws

/-- A source and the same source with blanks in place of its comments correspond, if comments are
not looked at. -/
def blankCorrespondence {left right : Input} (scannedLeft : left.Scanned)
    (scannedRight : right.Scanned) (same : right.tokens.toList = solidTokens left.tokens.toList)
    (breaks : right.source.map (· == Text.newline) = left.source.map (· == Text.newline)) :
    Correspondence left right where
  leftView := .bare
  rightView := .full
  Along := Abreast left
  Found := fun _ _ => True
  scannedLeft := scannedLeft
  scannedRight := scannedRight
  size_le := by
    rw [← Array.length_toList, ← Array.length_toList, same]
    exact List.length_filter_le _ _
  standsLeft := by
    rintro l r ⟨before, comments, solid, rest, along⟩
    obtain ⟨next, after, -, stands⟩ := along.standsLeft
    exact ⟨before, next, after, stands⟩
  standsRight := by
    rintro l r ⟨before, comments, solid, rest, along⟩
    exact ⟨_, _, _, along.standsRight same⟩
  indentation := by
    rintro l r ⟨_, _, _, _, along⟩
    exact along.indentation.symm
  reindent := by
    rintro l r ⟨before, comments, solid, rest, along⟩ levels
    exact ⟨before, comments, solid, rest, along.tokens, along.areComments, along.notComment,
      along.indexLeft, along.indexRight, along.position, rfl, along.place⟩
  position := by
    rintro l r ⟨_, _, _, _, along⟩
    exact along.position.symm
  column := by
    rintro l r ⟨_, _, _, _, along⟩
    rw [along.position]
  offset := by
    rintro l r l' r' ⟨_, _, _, _, along⟩ ⟨_, _, _, _, along'⟩
    rw [along.position, along'.position]
  crossed := by
    rintro l r l' r' ⟨_, _, _, _, along⟩ ⟨_, _, _, _, along'⟩
    rw [along.position, along'.position]
    exact hasNewline_slice_congr breaks _ _
  sees := by
    intro l r t t' along found found'
    refine ⟨trivial, ?_⟩
    rcases along.sees scannedLeft same found found' with ⟨rfl, starts⟩ | hidden
    · exact .inl ⟨rfl, starts⟩
    · exact .inr hidden
  past := fun along found found' _ _ solid notEnd =>
    along.past scannedLeft same found found' solid notEnd
  skips := by
    intro l r l' r' comments comments' along run run'
    obtain ⟨rfl, along'⟩ := along.skips same run run'
    exact ⟨rfl, along'⟩

/-! ## Trees -/

/-- What a parser reads from a source is what it reads from the input of the source. -/
theorem Parser.toOption_run {α : Type} (parser : Parser α) {source : Text} {input : Input}
    (made : Input.ofSource? source = .ok input) :
    (parser.run source).toOption = (parser input .start).toExcept.toOption := by
  rw [run, made]
  cases outcome : parser input .start with
  | done value cursor => simp [outcome, Outcome.toExcept, Except.toOption]
  | failed failure cursor => cases failure <;> simp [outcome, Outcome.toExcept, Except.toOption]

/-- A parser that runs in lockstep reads from a blanked source what it reads from the source, less
the comments. -/
theorem Parser.run_blank {α : Type} {seen : View → α → α} {parser : Parser α}
    (seenFull : ∀ a, seen .full a = a)
    (steps : ∀ {left right : Input} (c : Correspondence left right) (n : Nat), c.Steps n 0 seen
      parser parser) {source : Text} {tokens : List Token} (scan : Token.scan source = .ok tokens) :
    (parser.run (source.blank tokens)).toOption = (parser.run source).toOption.map
      (seen .bare) := by
  have blanked := blanked_of_scan scan
  have scanBlank := (Scan.scan_eq_ok_iff _ _).mpr blanked.divides
  let left : Input := ⟨tokens.toArray, source⟩
  let right : Input := ⟨(solidTokens tokens).toArray, source.blank tokens⟩
  have madeLeft : Input.ofSource? source = .ok left := Input.ofSource?_eq_ok.mpr ⟨rfl, scan⟩
  have madeRight : Input.ofSource? (source.blank tokens) = .ok right :=
    Input.ofSource?_eq_ok.mpr ⟨rfl, scanBlank⟩
  have scannedLeft : left.Scanned := .of_scan rfl scan
  have scannedRight : right.Scanned := .of_scan rfl scanBlank
  have meets := steps (blankCorrespondence scannedLeft scannedRight rfl blanked.breaks) _ .start
    .start (Abreast.start scannedLeft) (Nat.le_refl _)
  rw [parser.toOption_run madeLeft, parser.toOption_run madeRight]
  generalize parser left .start = o at meets
  generalize parser right .start = o' at meets
  cases meets with
  | @done a b l r leads =>
    have same : seen .bare a = seen .full b := leads.same
    exact congrArg some ((same.trans (seenFull b)).symm)
  | failed => rfl

/-- Comments change nothing in a tree but the comments: where a source can be read, so can the
source with blanks in place of its comments, and conversely, and then its tree is the tree of the
source without the comments. -/
theorem parse_blank {source : Text} {tokens : List Token} (scan : Token.scan source = .ok tokens) :
    (Module.parse (source.blank tokens)).toOption = (Module.parse source).toOption.map
      (Module.view .bare) ∧ (Expression.parse (source.blank tokens)).toOption =
      (Expression.parse source).toOption.map (Commented.view .bare (Expression.view .bare)) ∧
    (Pattern.parse (source.blank tokens)).toOption =
      (Pattern.parse source).toOption.map (Commented.view .bare (Pattern.view .bare)) ∧
    (TypeExpression.parse (source.blank tokens)).toOption = (TypeExpression.parse
      source).toOption.map (Commented.view .bare (TypeExpression.view .bare)) := by
  refine ⟨?_, ?_, ?_, ?_⟩
  · exact Parser.run_blank Module.view_full (fun _ _ => Grammar.module_steps) scan
  · exact Parser.run_blank (fun found => Commented.view_full found.value.view_full)
      (fun _ _ => Grammar.whole_steps Grammar.expression_steps) scan
  · exact Parser.run_blank (fun found => Commented.view_full found.value.view_full)
      (fun _ _ => Grammar.whole_steps Grammar.pattern_steps) scan
  · exact Parser.run_blank (fun found => Commented.view_full found.value.view_full)
      (fun _ _ => Grammar.whole_steps Grammar.typeExpression_steps) scan

/-- A definition with comments of both forms reads like the definition with blanks. -/
theorem commented_definition_reads_blank :
    (Module.parse "x = \x7b- a\n-\x7d 1 -- b").isOk = true ∧
    (Module.parse "x =     \n   1     ").toOption =
      (Module.parse "x = \x7b- a\n-\x7d 1 -- b").toOption.map (Module.view .bare) := by
  let source : Text := "x = \x7b- a\n-\x7d 1 -- b"
  have scan : Token.scan source = .ok ((Token.scan source).toOption.getD []) := by decide +kernel
  have blank : source.blank ((Token.scan source).toOption.getD []) = "x =     \n   1     " := by
    decide +kernel
  have reads := (parse_blank scan).1
  rw [blank] at reads
  exact ⟨by decide +kernel, reads⟩

end Marginalia
