import Marginalia.Proofs.Indentation.Continuation
import Mathlib.Algebra.Ring.Int.Defs

/-!
# An input and a longer one

A sequel is a pair of inputs of which the longer one has the tokens of the shorter one and then
others, the first solid one of which begins a declaration. Two runs from one cursor see the same as
long as tokens of the shorter input are ahead of it. When only comments are, passing over them parts
the runs: the short one stands at the end of its source, the long one at the declaration. Where this
can happen is told by the tokens of the shorter input: no `let` is open at its end, and the last
token waits for nothing, unless it ends a fixity declaration.
-/

namespace Marginalia

open Marginalia.Parser

/-! ## What tokens tell -/

/-- By how much a token leads deeper into `let`s. -/
def Token.nesting (token : Token) : Int :=
  if token.kind = .keyword ∧ token.lexeme = Text.ofString "let" then 1
  else if token.kind = .keyword ∧ token.lexeme = Text.ofString "in" then -1
  else 0

/-- The token is a word that declares a fixity. -/
def Token.DeclaresFixity (token : Token) : Prop :=
  token.kind = .keyword ∧ (Grammar.fixityKeyword? token.lexeme).isSome = true

/-- The reserved words that a declaration begins with. -/
def declaringWords : List String := ["type", "infix", "infixl", "infixr"]

/-- A declaration may begin with the token. -/
structure Token.Begins (token : Token) : Prop where
  /-- The token does not belong to what stands before it. -/
  apart : ¬ token.Joins
  /-- A reserved word declares something. -/
  word : token.kind = .keyword → ∃ word ∈ declaringWords, token.lexeme = Text.ofString word

/-- The kinds of tokens that stand between the parts of a declaration, and are in no pattern. -/
def partingKinds : List TokenKind := [.equals, .colon, .arrow, .range]

/-- The token parts a declaration: it is a sign between two parts of one, or a word that declares
something. -/
def Token.parts (token : Token) : Bool :=
  partingKinds.contains token.kind ||
    token.kind == .keyword && declaringWords.any fun word => token.lexeme == Text.ofString word

/-- How many `let`s before an index are open there. -/
def Input.depth (input : Input) (index : Nat) : Int :=
  ((input.tokens.toList.take index).map Token.nesting).sum

/-- A token adds its own nesting to the depth. -/
theorem Input.depth_succ {input : Input} {index : Nat} {token : Token}
    (found : input.tokens[index]? = some token) :
    input.depth (index + 1) = input.depth index + token.nesting := by
  rw [← Array.getElem?_toList] at found
  rw [depth, List.take_add_one, found]
  simp [depth]

/-- Only reserved words lead into `let`s or out of them. -/
theorem Token.nesting_of_ne {token : Token} (notWord : token.kind ≠ .keyword) :
    token.nesting = 0 := by
  simp [nesting, notWord]

/-- A comment leads nowhere. -/
theorem Token.nesting_of_isComment {token : Token} (comment : token.isComment = true) :
    token.nesting = 0 := by
  refine nesting_of_ne fun same => ?_
  rw [Token.isComment, same] at comment
  cases comment

/-- Comments do not change the depth. -/
theorem Input.depth_of_comments {input : Input} {first second : Nat} (le : first ≤ second)
    (comments : ∀ index, first ≤ index → index < second → ∀ token, input.tokens[index]? =
      some token → token.isComment = true) : input.depth second = input.depth first := by
  refine Input.eq_of_comments (fun index here => ?_) le comments
  cases found : input.tokens[index]? with
  | none =>
    rw [← Array.getElem?_toList] at found
    rw [depth, List.take_add_one, found]
    simp [depth]
  | some token =>
    rw [depth_succ found, Token.nesting_of_isComment (here token found)]
    exact Int.add_zero _

/-! ## Comments at an index -/

section Comments

variable {input : Input} {first second : Nat} {token : Token}

/-- The comments at an index are the tokens up to the next solid one. -/
theorem Input.commentsAt_eq_take (le : first ≤ second) (comments : ∀ index, first ≤ index →
      index < second → ∀ token, input.tokens[index]? = some token → token.isComment = true)
    (found : input.tokens[second]? = some token) (solid : token.isComment = false) :
    input.commentsAt first = (input.tokens.toList.drop first).take (second - first) ∧
    first + (input.commentsAt first).length = second := by
  have inside : second < input.tokens.size := (Array.getElem?_eq_some_iff.mp found).1
  have length : first + (input.commentsAt first).length = second := by
    rcases Nat.lt_trichotomy (first + (input.commentsAt first).length) second with short | same |
      long
    · have here := Array.getElem?_eq_getElem
        (show first + (input.commentsAt first).length < input.tokens.size by omega)
      have comment := comments _ (Nat.le_add_right _ _) short _ here
      rw [isComment_behind here] at comment
      cases comment
    · exact same
    · have comment := isComment_of_lt le long token found
      rw [solid] at comment
      cases comment
  refine ⟨?_, length⟩
  rw [input.drop_eq_commentsAt_append first,
    show second - first = (input.commentsAt first).length by omega, List.take_left]

/-- Blanks and comments are passed over up to the next solid token. -/
theorem whitespace_eq {cursor : Cursor} (le : cursor.index ≤ second)
    (comments : ∀ index, cursor.index ≤ index → index < second →
      ∀ token, input.tokens[index]? = some token → token.isComment = true)
    (found : input.tokens[second]? = some token) (solid : token.isComment = false) :
    whitespace input cursor = .done
      (((input.tokens.toList.drop cursor.index).take (second - cursor.index)).map Comment.ofToken)
      ⟨second, token.span.start, cursor.indentation⟩ := by
  obtain ⟨same, length⟩ := Input.commentsAt_eq_take le comments found solid
  rw [← same]
  simp only [whitespace, length, found]
  rfl

end Comments

/-- A cursor at a token is coherent. -/
theorem Input.At.coherent {input : Input} {cursor : Cursor} (place : input.At cursor)
    (scanned : input.Scanned) : input.Coherent cursor := by
  obtain ⟨before, next, after, stands⟩ := place
  refine ⟨next, stands.tokenAt?, (stands.bounds scanned).2,
    fun u member => (Scan.isBlank_iff u).mp ?_⟩
  rcases stands.position with atStart | atStop
  · rw [atStart, Text.slice_of_le _ (Nat.le_refl _)] at member
    cases member
  · rw [atStop] at member
    exact Scan.Divides.gaps scanned [] rfl before (next :: after) stands.tokens u member

/-! ## Sequels -/

/-- An input and a longer one that goes on behind it with a declaration or ends. -/
structure Sequel where
  /-- The shorter input. -/
  short : Input
  /-- The longer input. -/
  long : Input
  /-- The tokens of the shorter input are those of its source. -/
  scannedShort : short.Scanned
  /-- The tokens of the longer input are those of its source. -/
  scannedLong : long.Scanned
  /-- The number of tokens of the shorter input before its end. -/
  count : Nat
  /-- The end of the shorter source. -/
  stop : Position
  /-- The shorter input ends behind these tokens. -/
  ends : short.tokens[count]? = some ⟨.eof, [], ⟨stop, stop⟩⟩
  /-- The longer input begins with the tokens of the shorter one. -/
  same : ∀ index < count, long.tokens[index]? = short.tokens[index]?
  /-- Repetitions are bounded more tightly on the shorter input. -/
  repetition_le : short.repetitionLimit ≤ long.repetitionLimit
  /-- The nesting is bounded more tightly on the shorter input. -/
  nesting_le : short.nestingLimit ≤ long.nestingLimit
  /-- The sources agree up to the end of the shorter one. -/
  slice : ∀ first second, second ≤ stop.offset →
      long.source.slice first second = short.source.slice first second
  /-- Blanks stand between the end of the shorter source and what follows. -/
  behind : ∀ token, long.tokenAt? count = some token → stop.offset < token.span.start.offset
  /-- There is a token behind the tokens of the shorter input. -/
  goesOn : ∃ token, long.tokenAt? count = some token
  /-- The index of the first solid token behind them. -/
  first : Nat
  /-- The first solid token behind them. -/
  opening : Token
  /-- It stands behind them. -/
  count_le : count ≤ first
  /-- It stands at the index. -/
  opens : long.tokens[first]? = some opening
  /-- It is solid. -/
  solid : opening.isComment = false
  /-- Only comments stand before it. -/
  comments : ∀ index, count ≤ index → index < first → ∀ token, long.tokens[index]? = some token →
      token.isComment = true
  /-- It ends the longer source or begins a declaration in the first column. -/
  begins : opening.kind = .eof ∨ opening.Begins ∧ opening.span.start.column = 1
  /-- What parts that declaration first is neither an arrow nor two dots. -/
  declares : ∀ token ∈ (long.tokens.toList.drop first).find? (·.parts), token.kind ≠ .arrow ∧
      token.kind ≠ .range
  /-- No `let` is open at the end of the shorter source. -/
  balanced : short.depth count = 0

namespace Sequel

variable {s : Sequel} {start middle cursor : Cursor} {index : Nat} {token : Token}

/-- Tokens before the end are not the end, and the two inputs have them in common. -/
theorem tokenAt?_of_lt (inside : index < s.count) :
    ∃ token, s.short.tokens[index]? = some token ∧ s.short.tokenAt? index = some token ∧
      s.long.tokenAt? index = some token := by
  have size : index < s.short.tokens.size := by
    have last := (Array.getElem?_eq_some_iff.mp s.ends).1
    omega
  have here := Array.getElem?_eq_getElem size
  refine ⟨s.short.tokens[index], here, ?_, ?_⟩
  · rw [Input.tokenAt?, here]
    rfl
  · rw [Input.tokenAt?, s.same index inside, here]
    rfl

/-- The end of the shorter source stands behind its tokens. -/
theorem tokenAt?_count : s.short.tokenAt? s.count = some ⟨.eof, [], ⟨s.stop, s.stop⟩⟩ := by
  rw [Input.tokenAt?, s.ends]
  rfl

/-- A token of the shorter input lies before its end, in columns that are counted from one. -/
theorem bounds (inside : index < s.count) (found : s.short.tokens[index]? = some token) :
    token.span.start.offset ≤ s.stop.offset ∧ token.span.stop.offset ≤ s.stop.offset ∧
      1 ≤ token.span.start.column ∧ 1 ≤ token.span.stop.column := by
  have seen : s.short.tokenAt? index = some token := by
    rw [Input.tokenAt?, found]
    rfl
  obtain ⟨next, foundNext, gap, -⟩ := s.scannedShort.tokenAt?_succ seen
  obtain ⟨last, foundLast, le⟩ :=
    s.scannedShort.tokenAt?_of_le (show index + 1 ≤ s.count from inside) foundNext
  obtain rfl := Option.some.inj (foundLast.symm.trans s.tokenAt?_count)
  have wide := s.scannedShort.start_le_stop seen
  obtain ⟨starts, stops⟩ :=
    Scan.Divides.places s.scannedShort [] rfl token (Input.Scanned.mem_of_tokenAt? seen)
  have le : next.span.start.offset ≤ s.stop.offset := le
  refine ⟨by omega, by omega, ?_, ?_⟩
  · rw [starts.place, Position.ofOffset]
    exact Nat.le_add_right _ _
  · rw [stops.place, Position.ofOffset]
    exact Nat.le_add_right _ _

/-! ## Cursors -/

/-- A solid token of the shorter input is ahead of an index. -/
def Ahead (s : Sequel) (index : Nat) : Prop :=
  ∃ later token, index ≤ later ∧ later < s.count ∧ s.short.tokens[later]? = some token ∧
    token.isComment = false

/-- From an index on, what waits is followed by something, or a fixity is declared. -/
def Closes (s : Sequel) (index : Nat) : Prop :=
  (∀ later token, index ≤ later → later < s.count → s.short.tokens[later]? = some token →
      token.kind.waits = true → s.Ahead (later + 1)) ∨ ∃ later token, index ≤ later ∧
    later < s.count ∧ s.short.tokens[later]? = some token ∧ token.DeclaresFixity

/-- Two runs may be at the cursor at the same time. -/
structure Along (s : Sequel) (cursor : Cursor) : Prop where
  /-- The cursor is at a token of the longer input. -/
  place : s.long.At cursor
  /-- The cursor is not behind the tokens of the shorter input. -/
  index : cursor.index ≤ s.count
  /-- The cursor is not behind the shorter source. -/
  offset : cursor.position.offset ≤ s.stop.offset
  /-- Columns are counted from one. -/
  column : 1 ≤ cursor.position.column
  /-- The reference of indentation is a column. -/
  reference : 1 ≤ cursor.reference
  /-- No more `let`s are closed than were opened. -/
  depth : 0 ≤ s.short.depth cursor.index

/-- Two runs may begin at the cursor. -/
structure Ready (s : Sequel) (cursor : Cursor) : Prop extends s.Along cursor where
  /-- What waits is followed by something. -/
  closes : s.Closes cursor.index

/-- Both runs may lead from one cursor to another. -/
structure Leads (s : Sequel) (start cursor : Cursor) : Prop where
  /-- Two runs may begin there. -/
  ready : s.Ready cursor
  /-- The indentation is the same. -/
  indentation : cursor.indentation = start.indentation
  /-- No token is unread again. -/
  index : start.index ≤ cursor.index
  /-- As many `let`s are open. -/
  depth : s.short.depth cursor.index = s.short.depth start.index

/-- The runs have parted: the short one is at the end of its source, the long one at what
follows. -/
structure Parted (s : Sequel) (levels : List Nat) (l r : Cursor) : Prop where
  /-- The short run is at the end of its source. -/
  left : l = ⟨s.count, s.stop, levels⟩
  /-- The long run is at what follows. -/
  right : r = ⟨s.first, s.opening.span.start, levels⟩
  /-- The reference of indentation is a column. -/
  reference : 1 ≤ levels.headD 1

/-- Runs that read nothing stay. -/
theorem Ready.leads (ready : s.Ready start) : s.Leads start start :=
  ⟨ready, rfl, Nat.le_refl _, rfl⟩

/-- What leads on from where something led to leads there. -/
theorem Leads.trans (earlier : s.Leads start middle) (later : s.Leads middle cursor) :
    s.Leads start cursor :=
  ⟨later.ready, later.indentation.trans earlier.indentation, Nat.le_trans earlier.index later.index,
    later.depth.trans earlier.depth⟩

/-- Behind a token that declares no fixity, what waits is followed by something if it was before. -/
theorem Closes.succ (closes : s.Closes index) (found : s.short.tokens[index]? = some token)
    (plain : ¬ token.DeclaresFixity) : s.Closes (index + 1) := by
  rcases closes with closed | ⟨later, other, le, inside, foundOther, fixity⟩
  · exact .inl fun later other le => closed later other (by omega)
  · refine .inr ⟨later, other, ?_, inside, foundOther, fixity⟩
    by_contra before
    obtain rfl : later = index := by omega
    obtain rfl := Option.some.inj (found.symm.trans foundOther)
    exact plain fixity

/-- Behind a token that waits something follows. -/
theorem Closes.ahead (closes : s.Closes index) (inside : index < s.count)
    (found : s.short.tokens[index]? = some token) (plain : ¬ token.DeclaresFixity)
    (waits : token.kind.waits = true) : s.Ahead (index + 1) := by
  rcases closes with closed | ⟨later, other, le, before, foundOther, fixity⟩
  · exact closed index token (Nat.le_refl _) inside found waits
  · refine ⟨later, other, ?_, before, foundOther, ?_⟩
    · by_contra before
      obtain rfl : later = index := by omega
      obtain rfl := Option.some.inj (found.symm.trans foundOther)
      exact plain fixity
    · rw [Token.isComment, fixity.1]
      rfl

/-- Behind comments what waits is followed by something if it was before. -/
theorem Closes.skip {second : Nat} (closes : s.Closes index) (le : index ≤ second) (comments : ∀ i,
      index ≤ i → i < second → ∀ token, s.short.tokens[i]? = some token → token.isComment = true) :
    s.Closes second := by
  rcases closes with closed | ⟨later, other, lower, inside, found, fixity⟩
  · exact .inl fun later other lower => closed later other (by omega)
  · refine .inr ⟨later, other, ?_, inside, found, fixity⟩
    by_contra before
    have comment := comments later lower (by omega) other found
    rw [Token.isComment, fixity.1] at comment
    cases comment

/-- Deeper in `let`s than at the end of the source, something follows. -/
theorem ahead_of_depth (le : index ≤ s.count) (deep : 0 < s.short.depth index) : s.Ahead index := by
  by_contra none
  have comments : ∀ i, index ≤ i → i < s.count → ∀ token, s.short.tokens[i]? = some token →
        token.isComment = true := by
    intro i lower upper token found
    by_contra solid
    exact none ⟨i, token, lower, upper, found, by simpa using solid⟩
  have same := Input.depth_of_comments le comments
  rw [s.balanced] at same
  omega

/-- A cursor that two runs may be at is at a token of the shorter input too. -/
theorem Along.placeShort (along : s.Along start) : s.short.At start := by
  obtain ⟨before, next, after, stands⟩ := along.place
  have size := (Array.getElem?_eq_some_iff.mp s.ends).1
  have inside : start.index < s.short.tokens.size := Nat.lt_of_le_of_lt along.index size
  have front : s.short.tokens.toList.take start.index = before := by
    have read : before = s.long.tokens.toList.take start.index := by
      rw [stands.tokens, stands.index, List.take_left]
    rw [read]
    refine List.ext_getElem? fun i => ?_
    simp only [List.getElem?_take, Array.getElem?_toList]
    split
    · rename_i lt
      rw [s.same i (Nat.lt_of_lt_of_le lt along.index)]
    · rfl
  refine ⟨before, s.short.tokens[start.index], s.short.tokens.toList.drop (start.index + 1), ?_,
    stands.index, ?_⟩
  · rw [← front, ← Array.getElem_toList inside, ← List.drop_eq_getElem_cons, List.take_append_drop]
  · rcases stands.position with atStart | atStop
    · refine .inl ?_
      by_cases before : start.index < s.count
      · obtain ⟨token, here, -, foundLong⟩ := s.tokenAt?_of_lt before
        obtain rfl := Option.some.inj (stands.tokenAt?.symm.trans foundLong)
        rw [Array.getElem?_eq_getElem inside] at here
        rw [atStart, ← Option.some.inj here]
      · have index : start.index = s.count := Nat.le_antisymm along.index (Nat.le_of_not_lt before)
        have apart := s.behind next (index ▸ stands.tokenAt?)
        have le := along.offset
        rw [atStart] at le
        omega
    · exact .inr atStop

/-! ## Reading and passing over -/

/-- Behind a token that the runs read they are at one cursor. -/
theorem Along.past (along : s.Along start) (inside : start.index < s.count)
    (found : s.short.tokens[start.index]? = some token) (notEnd : token.kind ≠ .eof)
    (level : 0 ≤ s.short.depth start.index + token.nesting) : s.Along (past token start) := by
  obtain ⟨-, stop, -, column⟩ := bounds inside found
  have place : s.long.At (Parser.past token start) := by
    obtain ⟨_, next, _, stands⟩ := along.place
    have here : s.long.tokenAt? start.index = some token := by
      rw [Input.tokenAt?, s.same _ inside, found]
      rfl
    obtain rfl := Option.some.inj (stands.tokenAt?.symm.trans here)
    obtain ⟨_, _, -, behind, -⟩ := stands.past s.scannedLong notEnd
    exact ⟨_, _, _, behind⟩
  refine ⟨place, inside, stop, column, along.reference, ?_⟩
  show 0 ≤ s.short.depth (start.index + 1)
  rwa [Input.depth_succ found]

/-- Reading a token that neither opens nor closes a `let` nor declares a fixity leads on. -/
theorem Ready.past (ready : s.Ready start) (inside : start.index < s.count)
    (found : s.short.tokens[start.index]? = some token) (notEnd : token.kind ≠ .eof)
    (level : token.nesting = 0) (plain : ¬ token.DeclaresFixity) :
    s.Leads start (past token start) := by
  have depth : s.short.depth (start.index + 1) = s.short.depth start.index := by
    rw [Input.depth_succ found, level, Int.add_zero]
  refine ⟨⟨ready.toAlong.past inside found notEnd ?_, ready.closes.succ found plain⟩, rfl,
    Nat.le_succ _, depth⟩
  rw [level, Int.add_zero]
  exact ready.depth

/-- Reading gives one token on both inputs, or fails on both. -/
theorem Along.satisfy {property : Token → Bool} (along : s.Along start) (label : String)
    (notEnd : ∀ token, property token = true → token.kind ≠ .eof) :
    (∃ token, start.index < s.count ∧ s.short.tokens[start.index]? = some token ∧ property token =
      true ∧ satisfy property label s.short start = .done token (Parser.past token start) ∧
      satisfy property label s.long start = .done token (Parser.past token start)) ∨
    ∃ error error', satisfy property label s.short start = .failed (.rejected error) start ∧
      satisfy property label s.long start = .failed (.rejected error') start := by
  by_cases inside : start.index < s.count
  · obtain ⟨token, here, found, found'⟩ := s.tokenAt?_of_lt inside
    rw [satisfy_apply, satisfy_apply, found, found']
    dsimp only
    split
    · rename_i readable
      exact .inl ⟨token, inside, here, readable.2.2, rfl, rfl⟩
    · exact .inr ⟨_, _, rfl, rfl⟩
  · -- The short run is at the end of its source, and blanks stand before the next token of the
    -- long one.
    right
    have index : start.index = s.count := Nat.le_antisymm along.index (Nat.le_of_not_lt inside)
    obtain ⟨token, found⟩ := s.goesOn
    have unread : ¬ Readable property ⟨.eof, [], ⟨s.stop, s.stop⟩⟩ start :=
      fun readable => notEnd _ readable.2.2 rfl
    have unread' : ¬ Readable property token start := by
      intro readable
      have starts : token.span.start.offset = start.position.offset := readable.1
      have lt := s.behind token found
      have le := along.offset
      omega
    rw [satisfy_apply, satisfy_apply, index, s.tokenAt?_count, found]
    simp only [if_neg unread, if_neg unread']
    exact ⟨_, _, rfl, rfl⟩

/-- Blanks and comments are passed over alike while a solid token of the shorter input is ahead. -/
theorem Along.whitespace_ahead (along : s.Along start) (ahead : s.Ahead start.index) :
    ∃ comments cursor, Parser.whitespace s.short start = .done comments cursor ∧
      Parser.whitespace s.long start = .done comments cursor ∧ s.Along cursor ∧
      cursor.indentation = start.indentation ∧ start.index ≤ cursor.index ∧
      s.short.depth cursor.index = s.short.depth start.index ∧
      (s.Closes start.index → s.Closes cursor.index) ∧ s.Ahead cursor.index := by
  -- The next solid token is the first of those that are ahead.
  let second := start.index + (s.short.commentsAt start.index).length
  have comments : ∀ i, start.index ≤ i → i < second → ∀ token, s.short.tokens[i]? = some token →
      token.isComment = true := fun i lower upper => isComment_of_lt lower upper
  obtain ⟨later, other, le, inside, foundOther, solidOther⟩ := ahead
  have before : second ≤ later := by
    by_contra past
    have comment := comments later le (by omega) other foundOther
    rw [solidOther] at comment
    cases comment
  have upper : second < s.count := by omega
  have lower : start.index ≤ second := Nat.le_add_right _ _
  obtain ⟨token, found, -, -⟩ := s.tokenAt?_of_lt upper
  have solid : token.isComment = false := isComment_behind found
  obtain ⟨offset, -, column, -⟩ := bounds upper found
  have depth := Input.depth_of_comments lower comments
  have commentsLong : ∀ i, start.index ≤ i → i < second → ∀ token, s.long.tokens[i]? = some token →
      token.isComment = true := fun i lower upper token found =>
    comments i lower upper token ((s.same i (by omega)).symm.trans found)
  have runLong := whitespace_eq lower commentsLong ((s.same second upper).trans found) solid
  have place : s.long.At ⟨second, token.span.start, start.indentation⟩ := by
    obtain ⟨_, _, _, stands⟩ := along.place
    obtain ⟨_, _, _, _, _, run, behind, -⟩ := stands.whitespace s.scannedLong
    obtain ⟨-, rfl⟩ := Outcome.done.inj (run.symm.trans runLong)
    exact ⟨_, _, _, behind⟩
  refine ⟨_, _, whitespace_eq lower comments found solid, ?_,
    ⟨place, Nat.le_of_lt upper, offset, column, along.reference, ?_⟩, rfl, lower, depth,
    (·.skip lower comments), second, token, Nat.le_refl _, upper, found, solid⟩
  · rw [runLong]
    congr 2
    refine List.ext_getElem? fun i => ?_
    simp only [List.getElem?_take, List.getElem?_drop, Array.getElem?_toList]
    split
    · rw [s.same _ (by omega)]
    · rfl
  · show 0 ≤ s.short.depth second
    rw [depth]
    exact along.depth

/-- Otherwise there are comments only, up to the end of the shorter input and on behind it, and the
runs part. -/
theorem Along.whitespace_parts (along : s.Along start) (ends : ¬ s.Ahead start.index) :
    ∃ comments comments' l r, Parser.whitespace s.short start = .done comments l ∧
      Parser.whitespace s.long start = .done comments' r ∧ s.Parted start.indentation l r := by
  have comments : ∀ i, start.index ≤ i → i < s.count → ∀ token, s.short.tokens[i]? = some token →
      token.isComment = true := by
    intro i lower upper token found
    by_contra solid
    exact ends ⟨i, token, lower, upper, found, by simpa using solid⟩
  have commentsLong : ∀ i, start.index ≤ i → i < s.first → ∀ token, s.long.tokens[i]? = some token →
      token.isComment = true := by
    intro i lower upper token found
    by_cases inside : i < s.count
    · exact comments i lower inside token ((s.same i inside).symm.trans found)
    · exact s.comments i (by omega) upper token found
  exact ⟨_, _, _, _, whitespace_eq along.index comments s.ends rfl, whitespace_eq
      (Nat.le_trans along.index s.count_le) commentsLong s.opens s.solid, rfl, rfl, along.reference⟩

/-- Blanks and comments are passed over alike while a solid token of the shorter input is ahead, and
part the runs otherwise. -/
theorem Along.whitespace (along : s.Along start) :
    (∃ comments cursor, Parser.whitespace s.short start = .done comments cursor ∧
      Parser.whitespace s.long start = .done comments cursor ∧ s.Along cursor ∧
      cursor.indentation = start.indentation ∧ start.index ≤ cursor.index ∧
      s.short.depth cursor.index = s.short.depth start.index ∧ (s.Closes start.index →
      s.Closes cursor.index) ∧ s.Ahead cursor.index) ∨ ¬ s.Ahead start.index ∧
    ∃ comments comments' l r, Parser.whitespace s.short start = .done comments l ∧
      Parser.whitespace s.long start = .done comments' r ∧ s.Parted start.indentation l r := by
  by_cases ahead : s.Ahead start.index
  · exact .inl (along.whitespace_ahead ahead)
  · exact .inr ⟨ahead, along.whitespace_parts ahead⟩

/-- Blanks and comments lead on while a solid token of the shorter input is ahead, and part the runs
otherwise. -/
theorem Ready.whitespace (ready : s.Ready start) :
    (∃ comments cursor, Parser.whitespace s.short start = .done comments cursor ∧
      Parser.whitespace s.long start = .done comments cursor ∧ s.Leads start cursor ∧
      s.Ahead cursor.index) ∨ ¬ s.Ahead start.index ∧
    ∃ comments comments' l r, Parser.whitespace s.short start = .done comments l ∧
      Parser.whitespace s.long start = .done comments' r ∧ s.Parted start.indentation l r := by
  rcases ready.toAlong.whitespace with ⟨_, _, run, run', along, indentation, index, depth, closes,
    ahead⟩ | parts
  · exact .inl ⟨_, _, run, run', ⟨⟨along, closes ready.closes⟩, indentation, index, depth⟩, ahead⟩
  · exact .inr parts

end Sequel

end Marginalia
