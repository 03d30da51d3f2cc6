import Marginalia.Proofs.Lockstep.Module
import Marginalia.Proofs.Scan.Extent

/-!
# Sources with other blanks

Two sources are spaced alike when their tokens agree in kind, lexeme and start column, and the gaps
before them agree in whether there are blanks at all and whether there is a line break among them.
Such sources correspond: a run on the one and a run on the other are at tokens of the same number at
any time, both at the start of the token or both at the stop of the one before. So a tree, or the
report of a mismatch, depends on the blanks of a source through columns, adjacency and line breaks
only.
-/

namespace Marginalia

open Marginalia.Parser

/-- Places are seen by their column only. -/
def View.columns : View := ⟨fun position => ⟨0, 0, position.column⟩, true⟩

/-- Places in one column are seen alike. -/
theorem View.position_columns {position other : Position} (same : position.column = other.column) :
    View.columns.position position = View.columns.position other := by
  show (⟨0, 0, position.column⟩ : Position) = ⟨0, 0, other.column⟩
  rw [same]

/-! ## Tokens spaced alike -/

/-- Both gaps are empty or none is, and both have a line break or none has. -/
structure GapAlike (gap other : Text) : Prop where
  /-- Blanks stand in both gaps or in none. -/
  empty : gap = [] ↔ other = []
  /-- A line break stands in both gaps or in none. -/
  breaks : gap.hasNewline = other.hasNewline

/-- From two places of two sources on, tokens of the same kinds, lexemes and start columns follow
with like gaps before them. -/
inductive SpacedAlike (source other : Text) :
    Position → List Token → Position → List Token → Prop where
  | nil (position position' : Position) : SpacedAlike source other position [] position' []
  | cons {position position' : Position} {token token' : Token} {rest rest' : List Token}
      (kind : token.kind = token'.kind) (lexeme : token.lexeme = token'.lexeme)
      (column : token.span.start.column = token'.span.start.column)
      (gap : GapAlike (source.slice position.offset token.span.start.offset)
        (other.slice position'.offset token'.span.start.offset))
      (further : SpacedAlike source other token.span.stop rest token'.span.stop rest') :
      SpacedAlike source other position (token :: rest) position' (token' :: rest')

instance (gap other : Text) : Decidable (GapAlike gap other) :=
  decidable_of_iff ((gap = [] ↔ other = []) ∧ gap.hasNewline = other.hasNewline)
    ⟨fun ⟨empty, breaks⟩ => ⟨empty, breaks⟩, fun ⟨empty, breaks⟩ => ⟨empty, breaks⟩⟩

/-- Whether tokens are spaced alike can be decided token by token. -/
instance SpacedAlike.decidable (source other : Text) (position : Position) (tokens : List Token)
    (position' : Position) (tokens' : List Token) :
    Decidable (SpacedAlike source other position tokens position' tokens') :=
  match tokens, tokens' with
  | [], [] => isTrue (.nil position position')
  | [], _ :: _ => isFalse nofun
  | _ :: _, [] => isFalse nofun
  | token :: rest, token' :: rest' =>
    have := decidable source other token.span.stop rest token'.span.stop rest'
    decidable_of_iff (token.kind = token'.kind ∧ token.lexeme = token'.lexeme ∧
        token.span.start.column = token'.span.start.column ∧
        GapAlike (source.slice position.offset token.span.start.offset)
          (other.slice position'.offset token'.span.start.offset) ∧
        SpacedAlike source other token.span.stop rest token'.span.stop rest')
      ⟨fun ⟨kind, lexeme, column, gap, further⟩ => .cons kind lexeme column gap further,
        fun | .cons kind lexeme column gap further => ⟨kind, lexeme, column, gap, further⟩⟩

/-- Two places of one source and two of another: the second follows the first on both sides, with a
line break between them on both or on none. -/
structure CrossAlike (source other : Text) (start start' stop stop' : Position) : Prop where
  /-- The second place follows the first. -/
  le : start.offset ≤ stop.offset
  /-- So it does on the other side. -/
  le' : start'.offset ≤ stop'.offset
  /-- A line break is crossed on both sides or on none. -/
  breaks : (source.slice start.offset stop.offset).hasNewline =
      (other.slice start'.offset stop'.offset).hasNewline

/-- From a place to itself nothing is crossed. -/
theorem CrossAlike.refl (source other : Text) (place place' : Position) :
    CrossAlike source other place place' place place' := by
  refine ⟨Nat.le_refl _, Nat.le_refl _, ?_⟩
  rw [Text.slice_of_le _ (Nat.le_refl _), Text.slice_of_le _ (Nat.le_refl _)]

/-- What is crossed in two parts is crossed as a whole. -/
theorem CrossAlike.trans {source other : Text} {start start' middle middle' stop stop' : Position}
    (first : CrossAlike source other start start' middle middle')
    (second : CrossAlike source other middle middle' stop stop') :
    CrossAlike source other start start' stop stop' := by
  refine ⟨Nat.le_trans first.le second.le, Nat.le_trans first.le' second.le', ?_⟩
  rw [← Text.slice_append_slice source first.le second.le, ← Text.slice_append_slice other first.le'
      second.le', Text.hasNewline_append, Text.hasNewline_append, first.breaks, second.breaks]

/-- There are as many tokens on both sides. -/
theorem SpacedAlike.length_eq {source other : Text} {position position' : Position}
    {tokens tokens' : List Token}
    (alike : SpacedAlike source other position tokens position' tokens') :
    tokens.length = tokens'.length := by
  induction alike with
  | nil => rfl
  | cons _ _ _ _ _ ih => exact congrArg (· + 1) ih

/-- Tokens follow one another from a position on as the tokens of a source do: in order, over their
lexemes, and each up to where its lexeme leads. -/
structure Standing (source : Text) (position : Position) (tokens : List Token) : Prop where
  /-- The tokens follow one another. -/
  ordered : Ordered position tokens
  /-- Each token stands over its lexeme. -/
  stretches : ∀ token ∈ tokens, Scan.Stretches source token
  /-- Each token stops where its lexeme leads. -/
  stops : ∀ token ∈ tokens, token.span.stop = token.span.start.advance token.lexeme

/-- The first of tokens that follow one another follow one another. -/
theorem Ordered.front {position : Position} {first second : List Token}
    (ordered : Ordered position (first ++ second)) : Ordered position first := by
  induction first generalizing position with
  | nil => exact .nil position
  | cons token rest ih =>
    cases ordered with
    | cons gap wide solid further =>
      refine .cons gap wide (fun notLast => solid fun none => ?_) (ih further)
      exact notLast (List.append_eq_nil_iff.mp none).1

/-- What is known of all tokens is known of the first ones and of those behind them. -/
theorem Standing.split {source : Text} {position : Position} {first second : List Token}
    (standing : Standing source position (first ++ second)) :
    Standing source position first ∧ Standing source (stopAfter position first) second := by
  obtain ⟨stretchesFirst, stretchesSecond⟩ := List.forall_mem_append.mp standing.stretches
  obtain ⟨stopsFirst, stopsSecond⟩ := List.forall_mem_append.mp standing.stops
  exact ⟨⟨standing.ordered.front, stretchesFirst, stopsFirst⟩,
    ⟨standing.ordered.after.1, stretchesSecond, stopsSecond⟩⟩

/-- The tokens of a scanned input stand in its source. -/
theorem Standing.of_scanned {input : Input} (scanned : input.Scanned) :
    Standing input.source .start input.tokens.toList := by
  have stretches := Scan.Divides.stretches scanned [] rfl
  rw [List.nil_append] at stretches
  exact ⟨Scan.Divides.ordered scanned, stretches, Scan.Divides.stop_eq scanned⟩

/-- Tokens that stand in two sources and are spaced alike. -/
structure Respaced (source other : Text) (position : Position) (tokens : List Token)
    (position' : Position) (tokens' : List Token) : Prop where
  /-- The tokens are spaced alike. -/
  alike : SpacedAlike source other position tokens position' tokens'
  /-- The tokens stand in the one source. -/
  standing : Standing source position tokens
  /-- The tokens stand in the other source. -/
  standing' : Standing other position' tokens'

namespace Respaced

variable {source other : Text} {position position' : Position}

/-- As many tokens on both sides are spaced alike, and so is what follows them. -/
theorem split {first second first' second' : List Token}
    (respaced : Respaced source other position (first ++ second) position' (first' ++ second'))
    (lengths : first.length = first'.length) :
    Respaced source other position first position' first' ∧ Respaced source other
      (stopAfter position first) second (stopAfter position' first') second' := by
  obtain ⟨alike, standing, standing'⟩ := respaced
  obtain ⟨standingFirst, standingSecond⟩ := standing.split
  obtain ⟨standingFirst', standingSecond'⟩ := standing'.split
  have parts : SpacedAlike source other position first position' first' ∧ SpacedAlike source other
        (stopAfter position first) second (stopAfter position' first') second' := by
    clear standing standing' standingFirst standingFirst' standingSecond standingSecond'
    induction first generalizing first' position position' with
    | nil =>
      obtain rfl : first' = [] := List.eq_nil_of_length_eq_zero lengths.symm
      exact ⟨.nil _ _, alike⟩
    | cons token rest ih =>
      cases first' with
      | nil => cases lengths
      | cons token' rest' =>
        cases alike with
        | cons kind lexeme column gap further =>
          obtain ⟨inner, following⟩ := ih (Nat.succ.inj lengths) further
          exact ⟨.cons kind lexeme column gap inner, following⟩
  exact ⟨⟨parts.1, standingFirst, standingFirst'⟩, ⟨parts.2, standingSecond, standingSecond'⟩⟩

section First

variable {token token' : Token} {rest rest' : List Token}

/-- Behind the first tokens the others are spaced alike. -/
theorem tail
    (respaced : Respaced source other position (token :: rest) position' (token' :: rest')) :
    Respaced source other token.span.stop rest token'.span.stop rest' := by
  have parts : Respaced source other position ([token] ++ rest) position' ([token'] ++ rest') :=
    respaced
  exact (parts.split rfl).2

/-- The first tokens start in one column and stop in one column. -/
theorem columns
    (respaced : Respaced source other position (token :: rest) position' (token' :: rest')) :
    token.span.start.column = token'.span.start.column ∧
    token.span.stop.column = token'.span.stop.column := by
  cases respaced.alike with
  | cons _ lexeme column _ _ =>
    refine ⟨column, ?_⟩
    rw [respaced.standing.stops token (.head _), respaced.standing'.stops token' (.head _), lexeme]
    exact Position.column_advance column _

/-- The first tokens are seen alike by their columns. -/
theorem view_eq
    (respaced : Respaced source other position (token :: rest) position' (token' :: rest')) :
    token.view .columns = token'.view .columns := by
  obtain ⟨start, stop⟩ := respaced.columns
  cases respaced.alike with
  | cons kind lexeme _ _ _ =>
    rw [Token.view, Token.view, kind, lexeme, View.span, View.span, View.position_columns start,
      View.position_columns stop]

/-- The gaps before the first tokens are crossed alike. -/
theorem cross_gap
    (respaced : Respaced source other position (token :: rest) position' (token' :: rest')) :
    CrossAlike source other position position' token.span.start token'.span.start := by
  cases respaced.alike with
  | cons _ _ _ gap _ =>
    cases respaced.standing.ordered with
    | cons before _ _ _ =>
      cases respaced.standing'.ordered with
      | cons before' _ _ _ => exact ⟨before, before', gap.breaks⟩

/-- The first tokens themselves are crossed alike. -/
theorem cross_token
    (respaced : Respaced source other position (token :: rest) position' (token' :: rest')) :
    CrossAlike source other token.span.start token'.span.start token.span.stop
      token'.span.stop := by
  cases respaced.alike with
  | cons _ lexeme _ _ _ =>
    have stretch := (respaced.standing.stretches token (.head _)).1
    have stretch' := (respaced.standing'.stretches token' (.head _)).1
    cases respaced.standing.ordered with
    | cons _ wide _ _ =>
      cases respaced.standing'.ordered with
      | cons _ wide' _ _ =>
        refine ⟨wide, wide', ?_⟩
        rw [stretch, stretch', lexeme]

/-- Blanks stand before both first tokens or before none. -/
theorem adjacent_iff
    (respaced : Respaced source other position (token :: rest) position' (token' :: rest')) :
    token.span.start.offset = position.offset ↔ token'.span.start.offset = position'.offset := by
  have inside := (respaced.standing.stretches token (.head _)).2
  have inside' := (respaced.standing'.stretches token' (.head _)).2
  cases respaced.alike with
  | cons _ _ _ gap _ =>
    cases respaced.standing.ordered with
    | cons before wide _ _ =>
      cases respaced.standing'.ordered with
      | cons before' wide' _ _ =>
        have empty := gap.empty
        rw [Text.slice_eq_nil_iff (Nat.le_trans wide inside),
          Text.slice_eq_nil_iff (Nat.le_trans wide' inside')] at empty
        omega

end First

/-- The tokens of the other side can be divided where those of the one side are. -/
theorem divide {first second tokens' : List Token}
    (respaced : Respaced source other position (first ++ second) position' tokens') :
    ∃ first' second', tokens' = first' ++ second' ∧ first.length = first'.length := by
  have lengths := respaced.alike.length_eq
  rw [List.length_append] at lengths
  refine ⟨tokens'.take first.length, tokens'.drop first.length,
    (List.take_append_drop _ _).symm, ?_⟩
  rw [List.length_take]
  omega

/-- Comments are comments on both sides, and the same ones. -/
theorem comments {tokens tokens' : List Token}
    (respaced : Respaced source other position tokens position' tokens')
    (areComments : ∀ token ∈ tokens, token.isComment = true) :
    (∀ token ∈ tokens', token.isComment = true) ∧
    tokens.map Comment.ofToken = tokens'.map Comment.ofToken := by
  have alike := respaced.alike
  clear respaced
  induction alike with
  | nil => exact ⟨areComments, rfl⟩
  | cons kind lexeme _ _ _ ih =>
    obtain ⟨isComment, restComments⟩ := List.forall_mem_cons.mp areComments
    obtain ⟨restComments', same⟩ := ih restComments
    refine ⟨List.forall_mem_cons.mpr ⟨?_, restComments'⟩, ?_⟩
    · rwa [Token.isComment, kind] at isComment
    · rw [List.map_cons, List.map_cons, same, Comment.ofToken, Comment.ofToken, kind, lexeme]

/-- The last of the tokens on both sides stop in one column. -/
theorem stopAfter_column {tokens tokens' : List Token}
    (respaced : Respaced source other position tokens position' tokens')
    (column : position.column = position'.column) :
    (stopAfter position tokens).column = (stopAfter position' tokens').column := by
  induction tokens generalizing position position' tokens' with
  | nil =>
    cases respaced.alike
    exact column
  | cons token rest ih =>
    cases tokens' with
    | nil => cases respaced.alike
    | cons token' rest' =>
      have further := ih respaced.tail respaced.columns.2
      exact further

/-- All tokens and the gaps before them are crossed alike. -/
theorem cross {tokens tokens' : List Token}
    (respaced : Respaced source other position tokens position' tokens') :
    CrossAlike source other position position' (stopAfter position tokens)
      (stopAfter position' tokens') := by
  induction tokens generalizing position position' tokens' with
  | nil =>
    cases respaced.alike
    exact .refl _ _ _ _
  | cons token rest ih =>
    cases tokens' with
    | nil => cases respaced.alike
    | cons token' rest' =>
      have through := respaced.cross_gap.trans respaced.cross_token
      exact through.trans (ih respaced.tail)

end Respaced

/-! ## Cursors in both inputs -/

/-- The cursors are at tokens of the same number, both at the start of the token or both at the stop
of the one before. -/
structure BesideAt (left right : Input) (l r : Cursor) (before : List Token) (next : Token)
    (after before' : List Token) (next' : Token) (after' : List Token) : Prop where
  /-- The left tokens are these. -/
  tokensLeft : left.tokens.toList = before ++ next :: after
  /-- The right tokens are these. -/
  tokensRight : right.tokens.toList = before' ++ next' :: after'
  /-- As many tokens were read on both sides. -/
  lengths : before.length = before'.length
  /-- The left tokens before the cursor were read. -/
  indexLeft : l.index = before.length
  /-- The right tokens before the cursor were read. -/
  indexRight : r.index = before'.length
  /-- The references of indentation are the same. -/
  indentation : l.indentation = r.indentation
  /-- Both sources have been consumed up to the token, or up to the one before. -/
  place : (l.position = next.span.start ∧ r.position = next'.span.start) ∨
    (l.position = stopAfter .start before ∧ r.position = stopAfter .start before')

/-- The tokens of two inputs stand in their sources and are spaced alike. -/
def Input.RespacedAs (left right : Input) : Prop :=
  Respaced left.source right.source .start left.tokens.toList .start right.tokens.toList

namespace BesideAt

variable {left right : Input} {l r : Cursor} {before after before' after' : List Token}
  {next next' : Token}

/-- The left cursor stands at its token. -/
theorem standsLeft (beside : BesideAt left right l r before next after before' next' after') :
    left.Stands l before next after :=
  ⟨beside.tokensLeft, beside.indexLeft, beside.place.imp And.left And.left⟩

/-- The right cursor stands at its token. -/
theorem standsRight (beside : BesideAt left right l r before next after before' next' after') :
    right.Stands r before' next' after' :=
  ⟨beside.tokensRight, beside.indexRight, beside.place.imp And.right And.right⟩

/-- What was read is spaced alike, and so is what follows. -/
theorem parts (beside : BesideAt left right l r before next after before' next' after')
    (respaced : left.RespacedAs right) :
    Respaced left.source right.source .start before .start before' ∧
    Respaced left.source right.source (stopAfter .start before) (next :: after)
      (stopAfter .start before') (next' :: after') := by
  rw [Input.RespacedAs, beside.tokensLeft, beside.tokensRight] at respaced
  exact respaced.split beside.lengths

/-- The cursors are in one column. -/
theorem column (beside : BesideAt left right l r before next after before' next' after')
    (respaced : left.RespacedAs right) : l.position.column = r.position.column := by
  obtain ⟨read, following⟩ := beside.parts respaced
  rcases beside.place with ⟨start, start'⟩ | ⟨stop, stop'⟩
  · rw [start, start']
    exact following.columns.1
  · rw [stop, stop']
    exact read.stopAfter_column rfl

/-- Both next tokens start where the cursors are, or none does. -/
theorem startsAt_iff (beside : BesideAt left right l r before next after before' next' after')
    (respaced : left.RespacedAs right) : StartsAt next l ↔ StartsAt next' r := by
  rw [StartsAt, StartsAt]
  rcases beside.place with ⟨start, start'⟩ | ⟨stop, stop'⟩
  · rw [start, start']
    exact iff_of_true rfl rfl
  · rw [stop, stop']
    exact (beside.parts respaced).2.adjacent_iff

/-- From the cursors to the starts of their tokens lines are crossed alike. -/
theorem cross_start (beside : BesideAt left right l r before next after before' next' after')
    (respaced : left.RespacedAs right) :
    CrossAlike left.source right.source l.position r.position next.span.start next'.span.start := by
  rcases beside.place with ⟨start, start'⟩ | ⟨stop, stop'⟩
  · rw [start, start']
    exact .refl _ _ _ _
  · rw [stop, stop']
    exact (beside.parts respaced).2.cross_gap

/-- From the stops of the tokens before to the cursors lines are crossed alike. -/
theorem cross_stop (beside : BesideAt left right l r before next after before' next' after')
    (respaced : left.RespacedAs right) :
    CrossAlike left.source right.source (stopAfter .start before)
      (stopAfter .start before') l.position r.position := by
  rcases beside.place with ⟨start, start'⟩ | ⟨stop, stop'⟩
  · rw [start, start']
    exact (beside.parts respaced).2.cross_gap
  · rw [stop, stop']
    exact .refl _ _ _ _

/-- Both cursors can read their tokens. -/
theorem past (beside : BesideAt left right l r before next after before' next' after')
    (scannedLeft : left.Scanned) (scannedRight : right.Scanned) (notEnd : next.kind ≠ .eof)
    (notEnd' : next'.kind ≠ .eof) :
    ∃ second rest second' rest', BesideAt left right (past next l) (past next' r)
      (before ++ [next]) second rest (before' ++ [next']) second' rest' := by
  obtain ⟨second, rest, -, stands, -⟩ := beside.standsLeft.past scannedLeft notEnd
  obtain ⟨second', rest', -, stands', -⟩ := beside.standsRight.past scannedRight notEnd'
  refine ⟨second, rest, second', rest', stands.tokens, stands'.tokens, ?_, stands.index,
    stands'.index, beside.indentation, .inr ⟨?_, ?_⟩⟩
  · rw [List.length_append, List.length_append, beside.lengths]
    rfl
  · rw [stopAfter_append]
    rfl
  · rw [stopAfter_append]
    rfl

end BesideAt

/-- The two cursors are at tokens of the same number. -/
def Beside (left right : Input) (l r : Cursor) : Prop :=
  ∃ before next after before' next' after',
    BesideAt left right l r before next after before' next' after'

namespace Beside

variable {left right : Input} {l r l' r' : Cursor}

/-- The cursors have read as many tokens. -/
theorem index_eq (beside : Beside left right l r) : l.index = r.index := by
  obtain ⟨_, _, _, _, _, _, beside⟩ := beside
  rw [beside.indexLeft, beside.indexRight, beside.lengths]

/-- The right cursors are in the same order as the left ones, if they are at different tokens. -/
theorem offset_lt (beside : Beside left right l r) (beside' : Beside left right l' r')
    (scannedLeft : left.Scanned) (scannedRight : right.Scanned) (later : l.index < l'.index) :
    l.position.offset < l'.position.offset ∧ r.position.offset < r'.position.offset := by
  have index := beside.index_eq
  have index' := beside'.index_eq
  obtain ⟨_, _, _, _, _, _, beside⟩ := beside
  obtain ⟨_, _, _, _, _, _, beside'⟩ := beside'
  exact ⟨beside.standsLeft.offset_lt scannedLeft beside'.standsLeft later,
    beside.standsRight.offset_lt scannedRight beside'.standsRight (by omega)⟩

/-- Cursors at one token on the left are at one token on the right. -/
theorem unique {before before' first first' after after' third third' : List Token}
    {next next' second second' : Token}
    (beside : BesideAt left right l r before next after before' next' after')
    (other : BesideAt left right l' r' first second third first' second' third')
    (same : l.index = l'.index) :
    (before = first ∧ next = second ∧ after = third) ∧ before' = first' ∧ next' = second' ∧
    after' = third' := by
  have sameRight : r.index = r'.index := by
    have lengths := beside.lengths
    have lengths' := other.lengths
    have index := beside.indexLeft
    have index' := other.indexLeft
    rw [beside.indexRight, other.indexRight]
    omega
  exact ⟨beside.standsLeft.unique other.standsLeft same,
    beside.standsRight.unique other.standsRight sameRight⟩

/-- The left cursors are at one offset exactly if the right ones are. -/
theorem offset_iff (beside : Beside left right l r) (beside' : Beside left right l' r')
    (scannedLeft : left.Scanned) (scannedRight : right.Scanned) (respaced : left.RespacedAs right) :
    l'.position.offset = l.position.offset ↔ r'.position.offset = r.position.offset := by
  rcases Nat.lt_trichotomy l.index l'.index with later | same | earlier
  · obtain ⟨lt, lt'⟩ := beside.offset_lt beside' scannedLeft scannedRight later
    omega
  · obtain ⟨_, _, _, _, _, _, beside⟩ := beside
    obtain ⟨_, _, _, _, _, _, other⟩ := beside'
    obtain ⟨⟨rfl, rfl, rfl⟩, rfl, rfl, rfl⟩ := unique beside other same
    have adjacent := (beside.parts respaced).2.adjacent_iff
    rcases beside.place with ⟨start, start'⟩ | ⟨stop, stop'⟩ <;>
      rcases other.place with ⟨otherStart, otherStart'⟩ | ⟨otherStop, otherStop'⟩
    · rw [start, start', otherStart, otherStart']
      exact iff_of_true rfl rfl
    · rw [start, start', otherStop, otherStop', eq_comm, adjacent, eq_comm]
    · rw [stop, stop', otherStart, otherStart', adjacent]
    · rw [stop, stop', otherStop, otherStop']
      exact iff_of_true rfl rfl
  · obtain ⟨lt, lt'⟩ := beside'.offset_lt beside scannedLeft scannedRight earlier
    omega

/-- Where the second cursors do not come later, they have come no further. -/
theorem le_or_cross (beside : Beside left right l r) (beside' : Beside left right l' r')
    (respaced : left.RespacedAs right) (same : l.index = l'.index) :
    (l'.position.offset ≤ l.position.offset ∧ r'.position.offset ≤ r.position.offset) ∨
    CrossAlike left.source right.source l.position r.position l'.position r'.position := by
  obtain ⟨_, _, _, _, _, _, beside⟩ := beside
  obtain ⟨_, _, _, _, _, _, other⟩ := beside'
  obtain ⟨⟨rfl, rfl, rfl⟩, rfl, rfl, rfl⟩ := unique beside other same
  rcases other.place with ⟨start, start'⟩ | ⟨stop, stop'⟩
  · rw [start, start']
    exact .inr (beside.cross_start respaced)
  · rw [stop, stop']
    have behind := beside.cross_stop respaced
    exact .inl ⟨behind.le, behind.le'⟩

/-- To later cursors lines are crossed alike. -/
theorem cross_later (beside : Beside left right l r) (beside' : Beside left right l' r')
    (respaced : left.RespacedAs right) (later : l.index < l'.index) :
    CrossAlike left.source right.source l.position r.position l'.position r'.position := by
  have index := beside.index_eq
  have index' := beside'.index_eq
  obtain ⟨before, next, after, before', next', after', beside⟩ := beside
  obtain ⟨_, _, _, _, _, _, other⟩ := beside'
  obtain ⟨more, rfl, rfl⟩ := beside.standsLeft.between other.standsLeft later
  obtain ⟨more', rfl, rfl⟩ := beside.standsRight.between other.standsRight (by omega)
  have lengths : more.length = more'.length := by
    have whole := other.lengths
    have front := beside.lengths
    simp only [List.length_append, List.length_cons] at whole
    omega
  have following := (beside.parts respaced).2
  have toTokens := (beside.cross_start respaced).trans following.cross_token
  have toLast := toTokens.trans (following.tail.split lengths).1.cross
  have toCursors := other.cross_stop respaced
  rw [stopAfter_append, stopAfter_append] at toCursors
  exact toLast.trans toCursors

/-- Between any two pairs of cursors lines are crossed alike. -/
theorem crossed (beside : Beside left right l r) (beside' : Beside left right l' r')
    (scannedLeft : left.Scanned) (scannedRight : right.Scanned) (respaced : left.RespacedAs right) :
    (left.source.slice l.position.offset l'.position.offset).hasNewline =
      (right.source.slice r.position.offset r'.position.offset).hasNewline := by
  have back : l'.position.offset ≤ l.position.offset ∧ r'.position.offset ≤ r.position.offset →
      (left.source.slice l.position.offset l'.position.offset).hasNewline =
        (right.source.slice r.position.offset r'.position.offset).hasNewline := by
    rintro ⟨le, le'⟩
    rw [Text.slice_of_le _ le, Text.slice_of_le _ le']
  rcases Nat.lt_trichotomy l.index l'.index with later | same | earlier
  · exact (beside.cross_later beside' respaced later).breaks
  · rcases beside.le_or_cross beside' respaced same with notFurther | cross
    · exact back notFurther
    · exact cross.breaks
  · obtain ⟨lt, lt'⟩ := beside'.offset_lt beside scannedLeft scannedRight earlier
    exact back ⟨Nat.le_of_lt lt, Nat.le_of_lt lt'⟩

/-- Passing over blanks and comments finds the same comments and goes to tokens of the same
number. -/
theorem skips (beside : Beside left right l r) (scannedLeft : left.Scanned)
    (respaced : left.RespacedAs right) {comments comments' : Comments}
    (run : whitespace left l = .done comments l') (run' : whitespace right r = .done comments' r') :
    comments = comments' ∧ Beside left right l' r' := by
  obtain ⟨before, next, after, before', next', after', beside⟩ := beside
  obtain ⟨between, solid, rest, split, areComments, notComment⟩ :=
    beside.standsLeft.split_comments scannedLeft
  have following := (beside.parts respaced).2
  rw [split] at following
  obtain ⟨between', rest', split', lengths⟩ := following.divide
  rw [split'] at following
  obtain ⟨skipped, behind⟩ := following.split lengths
  obtain ⟨areComments', sameComments⟩ := skipped.comments areComments
  cases rest' with
  | nil => cases behind.alike
  | cons solid' rest' =>
    have notComment' : solid'.isComment = false := by
      cases behind.alike with
      | cons kind _ _ _ _ => rwa [Token.isComment, ← kind]
    have tokensLeft := beside.tokensLeft
    have tokensRight := beside.tokensRight
    rw [split] at tokensLeft
    rw [split'] at tokensRight
    have runLeft := whitespace_apply tokensLeft beside.indexLeft areComments notComment
    have runRight := whitespace_apply tokensRight beside.indexRight areComments' notComment'
    obtain ⟨rfl, rfl⟩ := Outcome.done.inj (runLeft.symm.trans run)
    obtain ⟨rfl, rfl⟩ := Outcome.done.inj (runRight.symm.trans run')
    refine ⟨sameComments, before ++ between, solid, rest, before' ++ between', solid', rest', ?_,
      ?_, ?_, ?_, ?_, beside.indentation, .inl ⟨rfl, rfl⟩⟩
    · rw [tokensLeft, List.append_assoc]
    · rw [tokensRight, List.append_assoc]
    · rw [List.length_append, List.length_append, beside.lengths, lengths]
    · rw [List.length_append]
    · rw [List.length_append]

/-- Both runs begin at the first tokens. -/
theorem start (scannedLeft : left.Scanned) (respaced : left.RespacedAs right) :
    Beside left right .start .start := by
  obtain ⟨inner, stop, closed, -⟩ := Scan.Divides.closed scannedLeft
  have lengths := SpacedAlike.length_eq respaced.alike
  cases tokens : left.tokens.toList with
  | nil => simp [closed] at tokens
  | cons next after =>
    cases tokens' : right.tokens.toList with
    | nil =>
      rw [tokens, tokens'] at lengths
      cases lengths
    | cons next' after' =>
      exact ⟨[], next, after, [], next', after', tokens, tokens', rfl, rfl, rfl, rfl,
        .inr ⟨rfl, rfl⟩⟩

end Beside

/-- Inputs whose tokens are spaced alike correspond, if only columns are seen of places. -/
def respacedCorrespondence {left right : Input} (scannedLeft : left.Scanned)
    (scannedRight : right.Scanned) (respaced : left.RespacedAs right) :
    Correspondence left right where
  leftView := .columns
  rightView := .columns
  Along := Beside left right
  Found := fun t t' => t.view .columns = t'.view .columns
  scannedLeft := scannedLeft
  scannedRight := scannedRight
  size_le :=
    Nat.le_of_eq (by rw [← Array.length_toList, ← Array.length_toList, respaced.alike.length_eq])
  standsLeft := fun ⟨_, _, _, _, _, _, beside⟩ => ⟨_, _, _, beside.standsLeft⟩
  standsRight := fun ⟨_, _, _, _, _, _, beside⟩ => ⟨_, _, _, beside.standsRight⟩
  indentation := fun ⟨_, _, _, _, _, _, beside⟩ => beside.indentation
  reindent := by
    rintro l r ⟨before, next, after, before', next', after', beside⟩ levels
    exact ⟨before, next, after, before', next', after', beside.tokensLeft, beside.tokensRight,
      beside.lengths, beside.indexLeft, beside.indexRight, rfl, beside.place⟩
  position := fun ⟨_, _, _, _, _, _, beside⟩ => View.position_columns (beside.column respaced)
  column := fun ⟨_, _, _, _, _, _, beside⟩ => beside.column respaced
  offset := fun beside beside' => beside.offset_iff beside' scannedLeft scannedRight respaced
  crossed := fun beside beside' => beside.crossed beside' scannedLeft scannedRight respaced
  sees := by
    rintro l r t t' ⟨_, next, _, _, next', _, beside⟩ found found'
    obtain rfl : next = t := Option.some.inj (beside.standsLeft.tokenAt?.symm.trans found)
    obtain rfl : next' = t' := Option.some.inj (beside.standsRight.tokenAt?.symm.trans found')
    have same := (beside.parts respaced).2.view_eq
    exact ⟨same, .inl ⟨same, beside.startsAt_iff respaced⟩⟩
  past := by
    rintro l r t t' ⟨_, next, _, _, next', _, beside⟩ found found' same - - notEnd
    obtain rfl : next = t := Option.some.inj (beside.standsLeft.tokenAt?.symm.trans found)
    obtain rfl : next' = t' := Option.some.inj (beside.standsRight.tokenAt?.symm.trans found')
    have notEnd' : next'.kind ≠ .eof := by rwa [← (Token.eq_of_view same).1]
    obtain ⟨_, _, _, _, later⟩ := beside.past scannedLeft scannedRight notEnd notEnd'
    exact ⟨_, _, _, _, _, _, later⟩
  skips := by
    intro l r l' r' comments comments' beside run run'
    obtain ⟨rfl, beside'⟩ := beside.skips scannedLeft respaced run run'
    exact ⟨rfl, beside'⟩

/-! ## Trees and reports -/

/-- Two reports have one wording, expect the same and point at places that are seen alike. -/
structure ParseError.Alike (view : View) (error other : ParseError) : Prop where
  /-- The wording is the same. -/
  message : error.message = other.message
  /-- The same is expected. -/
  expected : error.expected = other.expected
  /-- The places are seen alike. -/
  span : view.span error.span = view.span other.span

/-- Both sources are read, with results that are seen alike, or both are rejected by the grammar
with reports that are. -/
inductive ReadAlike {α : Type} (view : View) (seen : View → α → α) :
    Except SourceError α → Except SourceError α → Prop where
  | read {value value' : α} (same : seen view value = seen view value') :
      ReadAlike view seen (.ok value) (.ok value')
  | rejected {error error' : ParseError} (alike : error.Alike view error') :
      ReadAlike view seen (.error (.parse error)) (.error (.parse error'))

/-- Reports about tokens that are seen alike are alike. -/
theorem ParseError.Alike.of_faults {left right : Input} {scannedLeft : left.Scanned}
    {scannedRight : right.Scanned} {respaced : left.RespacedAs right} {error error' : ParseError}
    (faults : (respacedCorrespondence scannedLeft scannedRight respaced).Faults error error') :
    error.Alike .columns error' := by
  cases faults with
  | unexpected expected found =>
    have same : _ = _ := found
    obtain ⟨kind, lexeme⟩ := Token.eq_of_view same
    injection same with _ _ span
    refine ⟨?_, rfl, span⟩
    cases expected <;> simp only [ParseError.message, ParseError.describe, kind, lexeme]
  | invalidPrecedence same _ =>
    obtain ⟨-, lexeme⟩ := Token.eq_of_view same
    injection same with _ _ span
    refine ⟨?_, rfl, span⟩
    rw [ParseError.message, ParseError.message, lexeme]

/-- A parser that runs in lockstep reads sources that are spaced alike alike. -/
theorem Parser.run_respaced {α : Type} {seen : View → α → α} {parser : Parser α}
    (steps : ∀ {left right : Input} (c : Correspondence left right) (n : Nat),
      c.Steps n 0 seen parser parser) {source other : Text} {tokens tokens' : List Token}
    (scan : Token.scan source = .ok tokens) (scan' : Token.scan other = .ok tokens')
    (alike : SpacedAlike source other .start tokens .start tokens') :
    ReadAlike .columns seen (parser.run source) (parser.run other) := by
  let left : Input := ⟨tokens.toArray, source⟩
  let right : Input := ⟨tokens'.toArray, other⟩
  have madeLeft : Input.ofSource? source = .ok left := Input.ofSource?_eq_ok.mpr ⟨rfl, scan⟩
  have madeRight : Input.ofSource? other = .ok right := Input.ofSource?_eq_ok.mpr ⟨rfl, scan'⟩
  have scannedLeft : left.Scanned := .of_scan rfl scan
  have scannedRight : right.Scanned := .of_scan rfl scan'
  have respaced : left.RespacedAs right :=
    ⟨alike, .of_scanned scannedLeft, .of_scanned scannedRight⟩
  have meets := steps (respacedCorrespondence scannedLeft scannedRight respaced) _ .start .start
    (Beside.start scannedLeft respaced) (Nat.le_refl _)
  rw [run, run, madeLeft, madeRight]
  dsimp only
  generalize parser left .start = o at meets
  generalize parser right .start = o' at meets
  cases meets with
  | done leads => exact .read leads.same
  | failed faults => exact .rejected (.of_faults faults)

/-- Blanks matter through columns, adjacency and line breaks only: two sources whose tokens are
spaced alike are read alike, up to the offsets and lines of places, as modules, as expressions, as
patterns and as types. -/
theorem parse_respaced {source other : Text} {tokens tokens' : List Token}
    (scan : Token.scan source = .ok tokens) (scan' : Token.scan other = .ok tokens')
    (alike : SpacedAlike source other .start tokens .start tokens') :
    ReadAlike .columns Module.view (Module.parse source) (Module.parse other) ∧
    ReadAlike .columns (fun view => Commented.view view (Expression.view view))
      (Expression.parse source) (Expression.parse other) ∧ ReadAlike .columns (fun view =>
      Commented.view view (Pattern.view view)) (Pattern.parse source) (Pattern.parse other) ∧
    ReadAlike .columns (fun view => Commented.view view (TypeExpression.view view))
      (TypeExpression.parse source) (TypeExpression.parse other) := by
  refine ⟨?_, ?_, ?_, ?_⟩
  · exact Parser.run_respaced (fun _ _ => Grammar.module_steps) scan scan' alike
  · exact Parser.run_respaced (fun _ _ => Grammar.whole_steps Grammar.expression_steps)
      scan scan' alike
  · exact Parser.run_respaced (fun _ _ => Grammar.whole_steps Grammar.pattern_steps)
      scan scan' alike
  · exact Parser.run_respaced (fun _ _ => Grammar.whole_steps Grammar.typeExpression_steps)
      scan scan' alike

/-- Blank lines, blanks at the ends of lines and other line ends change no definition but in offsets
and lines. -/
theorem spaced_definition_read_alike :
    (Module.parse "a =\n  1 -- b\n\nc = d.e\n").isOk = true ∧
    ReadAlike .columns Module.view (Module.parse "a =\n  1 -- b\n\nc = d.e\n")
      (Module.parse "a =  \r\n\r\n\n  1 -- b\nc = d.e \r\n\n") := by
  let source : Text := "a =\n  1 -- b\n\nc = d.e\n"
  let other : Text := "a =  \r\n\r\n\n  1 -- b\nc = d.e \r\n\n"
  have scan : Token.scan source = .ok ((Token.scan source).toOption.getD []) := by decide +kernel
  have scan' : Token.scan other = .ok ((Token.scan other).toOption.getD []) := by decide +kernel
  have alike : SpacedAlike source other .start ((Token.scan source).toOption.getD []) .start
      ((Token.scan other).toOption.getD []) := by decide +kernel
  exact ⟨by decide +kernel, (parse_respaced scan scan' alike).1⟩

end Marginalia
