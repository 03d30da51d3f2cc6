import Marginalia.Proofs.Concatenation.Below
import Marginalia.Proofs.Concatenation.Module
import Marginalia.Proofs.Concatenation.Opening

/-!
# One module below another

A source without header and imports can be put on the lines below another one. Main statement: the
whole is read as the module above with the declarations of the module below behind its own ones,
further down by the lines above.
-/

namespace Marginalia

open Marginalia.Parser Marginalia.Grammar

variable {input : Input} {stop last : Cursor} {comments after : List Token} {opening : Token}
  {entries : List (Located TopLevel)}

/-! ## A source that begins with declarations -/

/-- Behind some comments the input is read as declarations, up to its end. -/
structure Input.Declares (input : Input) (comments : List Token) (opening : Token)
    (after : List Token) (entries : List (Located TopLevel)) (last : Cursor) : Prop where
  /-- The tokens are comments, the first solid one, and others. -/
  tokens : input.tokens.toList = comments ++ opening :: after
  /-- Those before the first solid token are comments. -/
  areComments : ∀ token ∈ comments, token.isComment = true
  /-- The first solid token is no comment. -/
  solid : opening.isComment = false
  /-- The declarations are read from the first solid token on. -/
  reads : declarationsUpTo input.repetitionLimit input ⟨comments.length, opening.span.start, []⟩ =
      .done entries last
  /-- There is nothing behind them. -/
  ends : eof input last = .done () last

namespace Grammar

/-- Where no imports are read, nothing is. -/
theorem importsUpTo_nil {bound : Nat} {pending behind : Located Comments} {start : Cursor}
    (run : importsUpTo bound pending input start = .done ([], behind) stop) : stop = start := by
  cases bound with
  | zero => cases run
  | succ bound =>
    obtain ⟨another, _, looked, rest⟩ := bind_done.mp run
    obtain ⟨rfl, -⟩ := peekThat_done looked
    cases another with
    | false => exact (Outcome.done.inj rest).2.symm
    | true =>
      obtain ⟨_, _, -, rest⟩ := bind_done.mp rest
      obtain ⟨_, _, -, rest⟩ := bind_done.mp rest
      obtain ⟨_, _, -, made⟩ := bind_done.mp rest
      cases (Prod.mk.inj (Outcome.done.inj made).1).1

/-- A module without header and imports is read as declarations from its first solid token on. -/
theorem module_declares (scanned : input.Scanned) {found : Module}
    (run : module input .start = .done found stop) (noHeader : found.header = none)
    (noImports : found.imports = []) :
    ∃ comments opening after entries last, input.Declares comments opening after entries last ∧
      solidEntries found.body = solidEntries entries := by
  obtain ⟨initial, first, ranInitial, rest⟩ := bind_done.mp run
  obtain ⟨header, second, ranHeader, rest⟩ := bind_done.mp rest
  obtain ⟨pending, third, ranPending, rest⟩ := bind_done.mp rest
  obtain ⟨⟨imports, behind⟩, fourth, ranImports, rest⟩ := bind_done.mp rest
  obtain ⟨entries, fifth, ranEntries, rest⟩ := bind_done.mp rest
  obtain ⟨_, sixth, ranEnd, made⟩ := bind_done.mp rest
  obtain ⟨rfl, rfl⟩ := Outcome.done.inj made
  obtain ⟨before, next, more, stands⟩ := scanned.at_start
  obtain rfl : before = [] := List.length_eq_zero_iff.mp stands.index.symm
  obtain ⟨comments, opening, after, split, areComments, solid⟩ := stands.split_comments scanned
  have tokens : input.tokens.toList = comments ++ opening :: after := stands.tokens.trans split
  have atFirst : first = ⟨comments.length, opening.span.start, []⟩ := by
    have passed := whitespace_apply
      (show input.tokens.toList = [] ++ (comments ++ opening :: after) from tokens)
      (show Cursor.start.index = ([] : List Token).length from rfl) areComments solid
    have same := (Outcome.done.inj (ranInitial.symm.trans passed)).2
    simpa [Cursor.start] using same
  have atSecond : second = first := by
    rcases optional_done ranHeader with ⟨_, some, -⟩ | ⟨-, same⟩
    · cases some.symm.trans noHeader
    · exact same
  have atThird : third = second := by
    have blanks := (located_done ranPending).2
    rw [atSecond, atFirst] at blanks ⊢
    have passed := whitespace_apply (show input.tokens.toList = comments ++ ([] ++ opening ::
        after) from tokens) (show (Cursor.mk comments.length opening.span.start []).index =
        comments.length from rfl) (List.forall_mem_nil _) solid
    have same := (Outcome.done.inj (blanks.symm.trans passed)).2
    simpa using same
  have atFourth : fourth = third := by
    obtain rfl : imports = [] := noImports
    exact importsUpTo_nil ranImports
  obtain ⟨_, _, _, rfl⟩ := eof_done ranEnd
  rw [atFourth, atThird, atSecond, atFirst] at ranEntries
  exact ⟨comments, opening, after, entries, _,
    ⟨tokens, areComments, solid, ranEntries, ranEnd⟩, by simp⟩

end Grammar

/-- The first solid token of declarations ends the source, or begins the first one in the first
column; and no arrow and no two dots are the first to part it. -/
theorem Input.Declares.begins (declares : input.Declares comments opening after entries last)
    (scanned : input.Scanned) :
    (opening.kind = .eof ∨ opening.Begins ∧ opening.span.start.column = 1) ∧
    ∀ token ∈ (opening :: after).find? (·.parts), token.kind ≠ .arrow ∧ token.kind ≠ .range := by
  have drop : input.tokens.toList.drop comments.length = opening :: after := by
    rw [declares.tokens, List.drop_left]
  have here : input.tokenAt? comments.length = some opening := by
    have found : input.tokens[comments.length]? = some opening := by
      rw [← Array.getElem?_toList, declares.tokens]
      simp
    rw [Input.tokenAt?, found]
    rfl
  have reads := declares.reads
  rw [show input.repetitionLimit = (2 * input.tokens.size + input.source.length + 1) +
      1 from rfl] at reads
  obtain ⟨next, _, looked, rest⟩ := bind_done.mp reads
  obtain ⟨found, rfl⟩ := peek_done looked
  obtain rfl := Option.some.inj (here.symm.trans found)
  split at rest
  · rename_i ends
    refine ⟨.inl ends, fun token first => ?_⟩
    have member := List.mem_of_find?_eq_some first
    rw [← drop] at member
    have isEnd := scanned.drop_of_eof here ends token member
    simp [isEnd]
  · obtain ⟨entry, _, ranEntry, -⟩ := bind_done.mp rest
    obtain ⟨token, foundFirst, begins⟩ := topLevel_opens.opens ranEntry
    obtain rfl := Option.some.inj (here.symm.trans foundFirst)
    refine ⟨.inr ⟨begins, topLevel_column ranEntry⟩, ?_⟩
    rw [← drop]
    exact topLevel_declares scanned ranEntry

/-! ## Two sources one below the other -/

/-- The whole is the upper source with the lower one on the lines below it. -/
structure Input.Stacked (upper lower whole : Input) (above : List Token)
    (stop : Position) : Prop where
  /-- The upper source ends behind these tokens. -/
  tokens : upper.tokens.toList = above ++ [⟨.eof, [], ⟨stop, stop⟩⟩]
  /-- The whole has the tokens of the lower source behind them. -/
  below : whole.Below upper.source above lower
  /-- The tokens of the upper source are those of its text. -/
  scannedUpper : upper.Scanned
  /-- The tokens of the lower source are those of its text. -/
  scannedLower : lower.Scanned
  /-- The tokens of the whole are those of its text. -/
  scannedWhole : whole.Scanned
  /-- The upper source ends where its text does. -/
  ends : stop.offset = upper.source.length

namespace Input.Stacked

variable {upper lower whole : Input} {above : List Token} {stop : Position} {index : Nat}
  {token : Token}

/-- The tokens of the whole behind those of the upper source are those of the lower one, further
down. -/
theorem getElem?_below (stacked : upper.Stacked lower whole above stop) (index : Nat) :
    whole.tokens[above.length + index]? = lower.tokens[index]?.map
      (Token.view (.below upper.source)) := by
  rw [← Array.getElem?_toList, stacked.below.tokens, List.getElem?_append_right
      (Nat.le_add_right _ _), Nat.add_sub_cancel_left, List.getElem?_map, Array.getElem?_toList]

/-- The upper source ends behind its tokens. -/
theorem getElem?_end (stacked : upper.Stacked lower whole above stop) :
    upper.tokens[above.length]? = some ⟨.eof, [], ⟨stop, stop⟩⟩ := by
  rw [← Array.getElem?_toList, stacked.tokens]
  simp

/-- The whole begins with the tokens of the upper source. -/
theorem getElem?_above (stacked : upper.Stacked lower whole above stop) :
    ∀ index < above.length, whole.tokens[index]? = upper.tokens[index]? := by
  intro index inside
  rw [← Array.getElem?_toList, ← Array.getElem?_toList, stacked.below.tokens, stacked.tokens,
    List.getElem?_append_left inside, List.getElem?_append_left inside]

/-- The numbers of tokens add up, without the end of the upper source. -/
theorem size (stacked : upper.Stacked lower whole above stop) :
    upper.tokens.size = above.length + 1 ∧
    whole.tokens.size = above.length + lower.tokens.size := by
  constructor
  · rw [← Array.length_toList, stacked.tokens, List.length_append]
    rfl
  · rw [← Array.length_toList, stacked.below.tokens, List.length_append, List.length_map]
    rfl

/-- A lower source has a token at least. -/
theorem size_pos (stacked : upper.Stacked lower whole above stop) : 0 < lower.tokens.size := by
  obtain ⟨_, _, _, stands⟩ := stacked.scannedLower.at_start
  exact Nat.lt_of_le_of_lt (Nat.zero_le _) stands.index_lt

/-- The two sources and a line break make up the whole. -/
theorem length (stacked : upper.Stacked lower whole above stop) :
    whole.source.length = upper.source.length + (lower.source.length + 1) := by
  rw [stacked.below.source, List.length_append]
  rfl

/-- Behind the tokens of the upper source the whole goes on, on a line below. -/
theorem goesOn (stacked : upper.Stacked lower whole above stop) :
    ∃ token, whole.tokenAt? above.length = some token ∧ stop.offset < token.span.start.offset := by
  have inside := stacked.size_pos
  have found : whole.tokens[above.length]? = some (lower.tokens[0].view (.below upper.source)) := by
    rw [show above.length = above.length + 0 from rfl, stacked.getElem?_below,
      Array.getElem?_eq_getElem inside]
    rfl
  refine ⟨_, by rw [tokenAt?, found]; rfl, ?_⟩
  rw [stacked.ends]
  show upper.source.length < lower.tokens[0].span.start.offset + (upper.source.length + 1)
  omega

/-- The whole may repeat more often than the upper source. -/
theorem repetitionLimit_le (stacked : upper.Stacked lower whole above stop) :
    upper.repetitionLimit ≤ whole.repetitionLimit := by
  have sizes := stacked.size
  have some := stacked.size_pos
  have lengths := stacked.length
  unfold repetitionLimit
  omega

/-- The whole may be nested deeper than the upper source. -/
theorem nestingLimit_le (stacked : upper.Stacked lower whole above stop) :
    upper.nestingLimit ≤ whole.nestingLimit := by
  have sizes := stacked.size
  have some := stacked.size_pos
  unfold nestingLimit
  omega

/-- What stands in the upper source stands there in the whole. -/
theorem slice (stacked : upper.Stacked lower whole above stop) :
    ∀ first second : Nat, second ≤ stop.offset →
      whole.source.slice first second = upper.source.slice first second := by
  intro first second le
  rw [stacked.ends] at le
  rw [stacked.below.source, Text.slice, Text.slice, List.take_drop, List.take_drop]
  by_cases forward : first ≤ second
  · rw [show first + (second - first) = second by omega, List.take_append_of_le_length le]
  · have none : first + (second - first) = first := by omega
    rw [none, List.drop_eq_nil_of_le (List.length_take_le _ _),
      List.drop_eq_nil_of_le (List.length_take_le _ _)]

/-- The token of the whole behind the upper source starts behind its end. -/
theorem behind (stacked : upper.Stacked lower whole above stop) :
    ∀ token, whole.tokenAt? above.length = some token → stop.offset < token.span.start.offset := by
  intro token found
  obtain ⟨other, foundOther, lt⟩ := stacked.goesOn
  obtain rfl := Option.some.inj (found.symm.trans foundOther)
  exact lt

/-- The first solid token of the lower source stands behind its comments in the whole. -/
theorem getElem?_opening (stacked : upper.Stacked lower whole above stop)
    (declares : lower.Declares comments opening after entries last) :
    whole.tokens[above.length + comments.length]? = some (opening.view (.below upper.source)) := by
  have here : lower.tokens[comments.length]? = some opening := by
    rw [← Array.getElem?_toList, declares.tokens]
    simp
  rw [stacked.getElem?_below, here]
  rfl

/-- Between the upper source and the first solid token of the lower one are comments. -/
theorem isComment (stacked : upper.Stacked lower whole above stop)
    (declares : lower.Declares comments opening after entries last) :
    ∀ index, above.length ≤ index → index < above.length + comments.length →
      ∀ token ∈ whole.tokens[index]?, token.isComment = true := by
  intro index low up token found
  obtain ⟨more, rfl⟩ := Nat.exists_eq_add_of_le low
  rw [stacked.getElem?_below, ← Array.getElem?_toList, declares.tokens,
    List.getElem?_append_left (by omega)] at found
  obtain ⟨comment, inComments, rfl⟩ := Option.map_eq_some_iff.mp found
  exact declares.areComments comment (List.mem_of_getElem? inComments)

/-- The first solid token of the lower source ends the whole, or begins a declaration there. -/
theorem begins (upper : Input) (scannedLower : lower.Scanned)
    (declares : lower.Declares comments opening after entries last) :
    (opening.view (.below upper.source)).kind = .eof ∨ (opening.view (.below upper.source)).Begins ∧
    (opening.view (.below upper.source)).span.start.column = 1 := by
  rcases (declares.begins scannedLower).1 with ends | ⟨begins, column⟩
  · exact .inl ends
  · exact .inr ⟨⟨begins.apart, begins.word⟩, column⟩

/-- No arrow and no two dots part the lower source in the whole first. -/
theorem parts (stacked : upper.Stacked lower whole above stop)
    (declares : lower.Declares comments opening after entries last) :
    ∀ token ∈ (whole.tokens.toList.drop (above.length + comments.length)).find? (·.parts),
      token.kind ≠ .arrow ∧ token.kind ≠ .range := by
  rw [stacked.below.tokens, declares.tokens, List.map_append, ← List.append_assoc,
    List.drop_left' (by simp), List.find?_map]
  intro token member
  obtain ⟨found, first, rfl⟩ := Option.map_eq_some_iff.mp member
  exact (declares.begins stacked.scannedLower).2 found first

/-- The upper source and the whole are a sequel: the whole goes on with the declarations of the
lower source. -/
def sequel (stacked : upper.Stacked lower whole above stop)
    (declares : lower.Declares comments opening after entries last)
    (balanced : upper.depth above.length = 0) : Sequel where
  short := upper
  long := whole
  scannedShort := stacked.scannedUpper
  scannedLong := stacked.scannedWhole
  count := above.length
  stop := stop
  ends := stacked.getElem?_end
  same := stacked.getElem?_above
  repetition_le := stacked.repetitionLimit_le
  nesting_le := stacked.nestingLimit_le
  slice := stacked.slice
  behind := stacked.behind
  goesOn := stacked.goesOn.imp fun _ found => found.1
  first := above.length + comments.length
  opening := opening.view (.below upper.source)
  count_le := Nat.le_add_right _ _
  opens := stacked.getElem?_opening declares
  solid := declares.solid
  comments := stacked.isComment declares
  begins := begins upper stacked.scannedLower declares
  declares := stacked.parts declares
  balanced := balanced

/-- What the whole goes on with are the declarations of the lower source, further down. -/
theorem remains (stacked : upper.Stacked lower whole above stop)
    (declares : lower.Declares comments opening after entries last)
    (balanced : upper.depth above.length = 0) :
    (stacked.sequel declares balanced).Remains (entriesView (.below upper.source) entries)
      (last.below upper.source above.length) := by
  have inside : Below.Inside lower ⟨comments.length, opening.span.start, []⟩ :=
    ⟨comments, opening, after, declares.tokens, rfl, .inl rfl⟩
  have limit : lower.tokens.size - comments.length < lower.repetitionLimit := by
    unfold repetitionLimit
    omega
  have below (bound : Nat) (enough : lower.tokens.size - comments.length < bound) :=
    stacked.below.declarations stacked.scannedWhole stacked.scannedLower inside enough limit
      declares.reads
  refine ⟨fun bound enough => ?_, ?_⟩
  · have sizes := stacked.size.2
    have enough : whole.tokens.size - (above.length + comments.length) < bound := enough
    exact (below bound (by omega)).1
  · have atEnd := (below _ (Nat.lt_succ_self _)).2
    have meets := @Correspondence.Steps.eof _ _
      (stacked.below.correspondence stacked.scannedWhole stacked.scannedLower) _
      (last.below upper.source above.length) last ⟨rfl, atEnd⟩ (Nat.le_refl _)
    rw [declares.ends] at meets
    show eof whole (last.below upper.source above.length) =
      .done () (last.below upper.source above.length)
    generalize eof whole (last.below upper.source above.length) = outcome at meets
    cases meets with
    | done leads =>
      obtain ⟨rfl, -⟩ := leads.along
      rfl

end Input.Stacked

/-! ## Whole modules -/

namespace Grammar

/-- Entries that are no comments are seen as such. -/
theorem solidEntries_entriesView (view : View) (entries : List (Located TopLevel)) :
    solidEntries (entriesView view entries) = entriesView view (solidEntries entries) := by
  induction entries with
  | nil => rfl
  | cons entry rest ih =>
    have first :
        solidEntries (entriesView view [entry]) = entriesView view (solidEntries [entry]) := by
      obtain ⟨span, value⟩ := entry
      cases value with
      | comment comment =>
        simp only [entriesView, Located.viewAll, TopLevel.view?, solidEntries, TopLevel.isComment]
        cases view.showsComments <;> rfl
      | _ => rfl
    have split (entries : List (Located TopLevel)) :
        entriesView view ([entry] ++ entries) = entriesView view [entry] ++
          entriesView view entries := Located.viewAll_append view _ [entry] entries
    have seen := Located.viewAll_append view (TopLevel.view? view) (solidEntries [entry])
      (solidEntries rest)
    rw [← List.singleton_append, split, solidEntries_append, solidEntries_append, first, ih]
    exact seen.symm

end Grammar

/-- A view of tokens changes no comments. -/
theorem commentsOf_map_view (view : View) (tokens : List Token) :
    commentsOf (tokens.map (Token.view view)) = commentsOf tokens := by
  simp [commentsOf, List.filter_map, Function.comp_def, Token.isComment, Token.view,
    Comment.ofToken]

/-- The tokens of a module lead nowhere, up to its end. -/
theorem Module.nesting_tokens {source : Text} {module : Module} {tokens inner : List Token}
    {stop : Position} (read : Module.parse source = .ok module)
    (scan : Token.scan source = .ok tokens) (split : tokens = inner ++ [⟨.eof, [], ⟨stop, stop⟩⟩]) :
    (inner.map Token.nesting).sum = 0 := by
  obtain ⟨found, scanFound, -, spelled⟩ := module_spelled read
  obtain rfl := Except.ok.inj (scanFound.symm.trans scan)
  have level := spelled.nesting
  rw [nesting_solidOf, module.depth_words, split, List.map_append, List.sum_append] at level
  simpa [Token.nesting] using level

/-- A module without header and imports on the lines below another one: the whole is read as a
module with the header and imports of the upper one, the entries of both, those of the lower one
further down, and the comments of both. -/
theorem parse_below {upper lower : Text} {above below : Module}
    (readAbove : Module.parse upper = .ok above) (readBelow : Module.parse lower = .ok below)
    (noHeader : below.header = none) (noImports : below.imports = []) :
    ∃ whole, Module.parse (upper ++ Text.newline :: lower) = .ok whole ∧
      whole.header = above.header ∧ whole.imports = above.imports ∧ solidEntries whole.body =
      solidEntries above.body ++ entriesView (.below upper) (solidEntries below.body) ∧
      whole.allComments = above.allComments ++ below.allComments := by
  obtain ⟨inputAbove, stopAbove, rfl, scanAbove, runAbove⟩ := run_eq_ok readAbove
  obtain ⟨inputBelow, stopBelow, rfl, scanBelow, runBelow⟩ := run_eq_ok readBelow
  have scannedAbove := Input.Scanned.of_scan rfl scanAbove
  have scannedBelow := Input.Scanned.of_scan rfl scanBelow
  obtain ⟨inner, split, divides⟩ := Scan.Divides.joined scannedAbove scannedBelow
  let tokens := inner ++ inputBelow.tokens.toList.map (Token.view (.below inputAbove.source))
  let input : Input := ⟨tokens.toArray, inputAbove.source ++ Text.newline :: inputBelow.source⟩
  have scan : Token.scan (inputAbove.source ++ Text.newline :: inputBelow.source) = .ok tokens :=
    (Scan.scan_eq_ok_iff _ _).mpr divides
  have stacked :
      inputAbove.Stacked inputBelow input inner (Position.start.advance inputAbove.source) :=
    ⟨split, ⟨rfl, rfl⟩, scannedAbove, scannedBelow,
      divides, by simp [Position.offset_advance, Position.start]⟩
  obtain ⟨comments, opening, after, entries, last, declares, sameBelow⟩ :=
    module_declares scannedBelow runBelow noHeader noImports
  have balanced : inputAbove.depth inner.length = 0 := by
    rw [Input.depth, split, List.take_left]
    exact Module.nesting_tokens readAbove scanAbove split
  obtain ⟨whole, run, header, imports, body⟩ :=
    module_between (stacked.remains declares balanced) runAbove
  have read :
      Module.parse (inputAbove.source ++ Text.newline :: inputBelow.source) = .ok whole := by
    have made :
        Input.ofSource? (inputAbove.source ++ Text.newline :: inputBelow.source) = .ok input :=
      Input.ofSource?_eq_ok.mpr ⟨rfl, scan⟩
    have ran : Grammar.module input .start = .done whole _ := run
    rw [Module.parse, Parser.run, made]
    simp only [ran]
  refine ⟨whole, read, header, imports, ?_, ?_⟩
  · rw [body, solidEntries_entriesView, sameBelow]
  · obtain ⟨_, scanned, comments, -⟩ := module_spelled read
    obtain ⟨_, scannedAbove, commentsAbove, -⟩ := module_spelled readAbove
    obtain ⟨_, scannedBelow, commentsBelow, -⟩ := module_spelled readBelow
    obtain rfl := Except.ok.inj (scanned.symm.trans scan)
    obtain rfl := Except.ok.inj (scannedAbove.symm.trans scanAbove)
    obtain rfl := Except.ok.inj (scannedBelow.symm.trans scanBelow)
    rw [comments, commentsAbove, commentsBelow, commentsOf_append, commentsOf_map_view, split,
      commentsOf_append]
    simp [commentsOf, Token.isComment, TokenKind.isComment]

/-- A module that ends in an open chain takes nothing of a module below it that begins with a
comment. -/
theorem chain_below_read :
    ∃ above below whole,
      Module.parse "module M exposing (..)\nx = f -- a\n  + case y of\n    z -> 1" = .ok above ∧
      Module.parse "-- b\ny z = 2" = .ok below ∧ below.header = none ∧ below.imports = [] ∧
      Module.parse "module M exposing (..)\nx = f -- a\n  + case y of\n    z -> 1\n-- b\ny z = 2" =
      .ok whole ∧ whole.header = above.header ∧ whole.imports = above.imports ∧
      solidEntries whole.body = solidEntries above.body ++ entriesView (.below
      "module M exposing (..)\nx = f -- a\n  + case y of\n    z -> 1") (solidEntries below.body) ∧
      whole.allComments = above.allComments ++ below.allComments := by
  obtain ⟨above, readAbove⟩ := ok_of_isOk (show (Module.parse
    "module M exposing (..)\nx = f -- a\n  + case y of\n    z -> 1").isOk = true by decide +kernel)
  obtain ⟨below, readBelow⟩ :=
    ok_of_isOk (show (Module.parse "-- b\ny z = 2").isOk = true by decide +kernel)
  have plain : ((Module.parse "-- b\ny z = 2").toOption.all fun found =>
        found.header.isNone && found.imports.isEmpty) = true := by decide +kernel
  rw [readBelow] at plain
  obtain ⟨noHeader, noImports⟩ := Bool.and_eq_true_iff.mp plain
  have noHeader : below.header = none := Option.isNone_iff_eq_none.mp noHeader
  have noImports : below.imports = [] := List.isEmpty_iff.mp noImports
  obtain ⟨whole, read, parts⟩ := parse_below readAbove readBelow noHeader noImports
  exact ⟨above, below, whole, readAbove, readBelow, noHeader, noImports, read, parts⟩

end Marginalia
