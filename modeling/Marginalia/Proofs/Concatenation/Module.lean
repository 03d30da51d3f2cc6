import Marginalia.Proofs.Concatenation.Conclusion
import Marginalia.Proofs.Concatenation.Declaration
import Marginalia.Proofs.Indentation.Module

/-!
# Modules go on

A run of the grammar of modules that succeeds on the shorter input of a sequel goes on on the longer
one: it reads the same header, imports and declarations, and then what begins behind them. Between
two parts of a module the runs are at one cursor, with a solid token of the shorter input ahead, or
they have parted, and then nothing but the end is left for the short one.
-/

namespace Marginalia

open Marginalia.Parser Marginalia.Grammar

variable {s : Sequel} {l r l' r' start stop last : Cursor} {others : List (Located TopLevel)}

namespace Sequel

/-- What the long run reads from where a declaration begins, under every bound that exceeds the
tokens left. -/
structure Remains (s : Sequel) (others : List (Located TopLevel)) (last : Cursor) : Prop where
  /-- These entries are read. -/
  reads (bound : Nat) (enough : s.long.tokens.size - s.first < bound) :
    declarationsUpTo bound s.long ⟨s.first, s.opening.span.start, []⟩ = .done others last
  /-- There is nothing behind them. -/
  ends : eof s.long last = .done () last

/-! ## Between two parts -/

/-- Where the runs are between two parts of a module: at one cursor outside of any block, or
parted. -/
inductive Between (s : Sequel) (ahead : Bool) : Cursor → Cursor → Prop where
  | same {cursor : Cursor} (knows : s.Knows ahead cursor) (outside : cursor.indentation = []) :
      Between s ahead cursor cursor
  | parted {l r : Cursor} (parted : s.Parted [] l r) : Between s ahead l r

/-- Runs that have parted are not at one cursor. -/
theorem Parted.ne {levels : List Nat} (parted : s.Parted levels l r) : l ≠ r := by
  obtain ⟨rfl, rfl, -⟩ := parted
  intro same
  obtain ⟨token, found⟩ := s.goesOn
  obtain ⟨next, foundNext, le⟩ := s.scannedLong.tokenAt?_of_le s.count_le found
  have opens : s.long.tokenAt? s.first = some s.opening := by
    rw [Input.tokenAt?, s.opens]
    rfl
  obtain rfl := Option.some.inj (opens.symm.trans foundNext)
  have apart := s.behind token found
  have offset : s.stop.offset = s.opening.span.start.offset := congrArg (·.position.offset) same
  omega

/-- Where the runs have parted, there is nothing to pass over. -/
theorem Parted.blanks {levels : List Nat} (parted : s.Parted levels l r) :
    whitespace s.short l = .done [] l ∧ whitespace s.long r = .done [] r := by
  obtain ⟨rfl, rfl, -⟩ := parted
  have short := whitespace_eq (show (Cursor.mk s.count s.stop levels).index ≤ s.count from
      Nat.le_refl _) (fun index lower upper => absurd upper (Nat.not_lt.mpr lower)) s.ends rfl
  have long := whitespace_eq
    (show (Cursor.mk s.first s.opening.span.start levels).index ≤ s.first from Nat.le_refl _)
    (fun index lower upper => absurd upper (Nat.not_lt.mpr lower)) s.opens s.solid
  simp only [Nat.sub_self, List.take_zero, List.map_nil] at short long
  exact ⟨short, long⟩

/-- Blanks lead from one part of a module to the next. -/
theorem Between.blanks {ahead : Bool} {comments : Comments} (between : s.Between ahead l r)
    (run : Parser.whitespace s.short l = .done comments l') :
    ∃ comments' r', Parser.whitespace s.long r = .done comments' r' ∧ s.Between true l' r' ∧
      (s.Parted [] l' r' ∨ r = l ∧ comments' = comments ∧ r' = l') := by
  cases between with
  | same knows outside =>
    rcases knows.1.whitespace with ⟨_, _, run', runLong, leads, known⟩ |
      ⟨-, _, _, _, _, run', runLong, parted⟩
    · obtain ⟨rfl, rfl⟩ := Outcome.done.inj (run.symm.trans run')
      exact ⟨_, _, runLong, .same ⟨leads.ready, fun _ => known⟩ (leads.indentation.trans outside),
        .inr ⟨rfl, rfl, rfl⟩⟩
    · obtain ⟨rfl, rfl⟩ := Outcome.done.inj (run.symm.trans run')
      rw [outside] at parted
      exact ⟨_, _, runLong, .parted parted, .inl parted⟩
  | parted parted =>
    obtain ⟨short, long⟩ := parted.blanks
    obtain ⟨rfl, rfl⟩ := Outcome.done.inj (run.symm.trans short)
    exact ⟨_, _, long, .parted parted, .inl parted⟩

end Sequel

/-- Located blanks are blanks with their place. -/
theorem Parser.locatedWhitespace_eq {input : Input} {comments : Comments}
    (run : whitespace input start = .done comments stop) :
    located whitespace input start = .done ⟨⟨start.position, stop.position⟩, comments⟩ stop := by
  simp only [located, bind_done]
  exact ⟨_, _, rfl, _, _, run, _, _, rfl, rfl⟩

/-- Located blanks lead from one part of a module to the next. -/
theorem Sequel.Between.locatedBlanks {ahead : Bool} {comments : Located Comments}
    (between : s.Between ahead l r) (run : located whitespace s.short l = .done comments l') :
    ∃ comments' r', located whitespace s.long r = .done comments' r' ∧ s.Between true l' r' ∧
      (s.Parted [] l' r' ∨ comments' = comments) := by
  obtain ⟨span, blanks⟩ := located_done run
  obtain ⟨found, r', blanks', behind, parted | ⟨rfl, rfl, rfl⟩⟩ := between.blanks blanks
  · exact ⟨_, r', locatedWhitespace_eq blanks', behind, .inl parted⟩
  · refine ⟨_, r', locatedWhitespace_eq blanks', behind, .inr ?_⟩
    rw [← span]

/-- The end of a source is its last token. -/
theorem Input.Scanned.size_of_eof {input : Input} (scanned : input.Scanned) {index : Nat}
    {token : Token} (found : input.tokens[index]? = some token) (ends : token.kind = .eof) :
    input.tokens.size = index + 1 := by
  obtain ⟨inner, stop, same, solid⟩ := Scan.Divides.closed scanned
  have size : input.tokens.size = inner.length + 1 := by
    rw [← Array.length_toList, same, List.length_append]
    rfl
  have inside : index < input.tokens.size := (Array.getElem?_eq_some_iff.mp found).1
  rw [← Array.getElem?_toList, same] at found
  by_cases before : index < inner.length
  · rw [List.getElem?_append_left before] at found
    exact absurd ends (solid token (List.mem_of_getElem? found))
  · omega

/-- A part that fails at once is absent. -/
theorem Parser.optional_of_stays {α : Type} {parser : Parser α} {input : Input}
    (stays : (parser input start).Stays false start) :
    optional parser input start = .done none start := by
  obtain ⟨_, same⟩ := rejected_of_stays stays
  rw [optional, same]
  simp [Cursor.not_movedFrom]

namespace Grammar

open Sequel

/-! ## Header and imports -/

/-- Neither at the end of a source nor at a declaration is the word of a header or of an import. -/
theorem headingWord_stops {word : String}
    (notDeclaring : ∀ other ∈ declaringWords, Text.ofString word ≠ Text.ofString other) :
    Stops true false (keyword word) := continuingKeyword_stops notDeclaring

/-- What is behind the header goes on where the header does. -/
theorem header_between {header : Option (Located ModuleHeader)} (between : s.Between true l r)
    (run : optional moduleHeader s.short l = .done header l') :
    ∃ r', optional moduleHeader s.long r = .done header r' ∧ s.Between false l' r' := by
  have header : Carries s true (.within false) .stays (optional moduleHeader)
        (optional moduleHeader) := inferInstance
  have word : Stops true false (keyword "module") := headingWord_stops (by decide)
  have stops : Stops true false moduleHeader := by unfold moduleHeader; infer_instance
  cases between with
  | same knows outside =>
    obtain ⟨run', behind, indentation⟩ := header.persists.done knows run
    exact ⟨_, run', .same behind (indentation.trans outside)⟩
  | parted parted =>
    obtain ⟨rfl, rfl⟩ := Outcome.done.inj (run.symm.trans (optional_of_stays (stops.short parted)))
    exact ⟨_, optional_of_stays (stops.long parted), .parted parted⟩

/-- Where the runs have parted there is no import. -/
theorem not_import_of_parted {levels : List Nat} (parted : s.Parted levels l r) :
    peekSpelled .keyword "import" s.short l = .done false l ∧
    peekSpelled .keyword "import" s.long r = .done false r := by
  have notImport :
      (s.opening.kind == .keyword && s.opening.lexeme == Text.ofString "import") = false := by
    refine Bool.eq_false_iff.mpr fun holds => ?_
    obtain ⟨kind, lexeme⟩ := Bool.and_eq_true_iff.mp holds
    rcases s.begins with ends | ⟨begins, -⟩
    · rw [beq_iff_eq.mp kind] at ends
      cases ends
    · obtain ⟨word, member, same⟩ := begins.word (beq_iff_eq.mp kind)
      have notDeclaring : ∀ word ∈ declaringWords, Text.ofString "import" ≠ Text.ofString word := by
        decide
      exact notDeclaring word member ((beq_iff_eq.mp lexeme).symm.trans same)
  have foundShort : s.short.tokenAt? l.index = some ⟨.eof, [], ⟨s.stop, s.stop⟩⟩ := by
    rw [parted.left]
    exact s.tokenAt?_count
  refine ⟨?_, ?_⟩
  · rw [peekSpelled, peekThat_apply, foundShort]
    dsimp only
    rw [show (TokenKind.eof == TokenKind.keyword) = false from rfl, Bool.false_and, Bool.and_false]
  · rw [peekSpelled, peekThat_apply, tokenAt?_of_parted parted]
    dsimp only
    rw [notImport, Bool.and_false]

/-- What is behind the imports goes on where the imports do. -/
theorem imports_between {bound bound' : Nat} {pending pending' after : Located Comments}
    {imports : List (Commented (Located Import))} (le : bound ≤ bound')
    (between : s.Between true l r) (same : s.Parted [] l r ∨ pending' = pending)
    (run : importsUpTo bound pending s.short l = .done (imports, after) l') :
    ∃ after' r', importsUpTo bound' pending' s.long r = .done (imports, after') r' ∧
      s.Between true l' r' := by
  induction bound generalizing bound' pending pending' imports l r with
  | zero => cases run
  | succ bound ih =>
    obtain ⟨bound', rfl⟩ : ∃ more, bound' = more + 1 := ⟨bound' - 1, by omega⟩
    obtain ⟨another, here, looked, rest⟩ := bind_done.mp run
    cases between with
    | parted parted =>
      obtain ⟨short, long⟩ := not_import_of_parted parted
      obtain ⟨rfl, rfl⟩ := Outcome.done.inj (looked.symm.trans short)
      obtain ⟨result, rfl⟩ := Outcome.done.inj rest
      obtain ⟨rfl, rfl⟩ := Prod.mk.inj result
      exact ⟨pending', r, bind_done.mpr ⟨_, _, long, rfl⟩, .parted parted⟩
    | same knows outside =>
      obtain rfl := same.resolve_left fun parted => parted.ne rfl
      have looks : Carries s true (.within true) .stays (peekSpelled .keyword "import")
            (peekSpelled .keyword "import") :=
        inferInstance
      obtain ⟨looked', -⟩ := looks.persists.done knows looked
      obtain ⟨rfl, -⟩ := peekThat_done looked
      cases another with
      | false =>
        obtain ⟨result, rfl⟩ := Outcome.done.inj rest
        obtain ⟨rfl, rfl⟩ := Prod.mk.inj result
        exact ⟨_, _, bind_done.mpr ⟨_, _, looked', rfl⟩, .same knows outside⟩
      | true =>
        obtain ⟨declaration, behind, ranImport, rest⟩ := bind_done.mp rest
        obtain ⟨next, ahead, ranBlanks, rest⟩ := bind_done.mp rest
        obtain ⟨⟨others, last⟩, _, ranOthers, made⟩ := bind_done.mp rest
        obtain ⟨result, rfl⟩ := Outcome.done.inj made
        obtain ⟨rfl, rfl⟩ := Prod.mk.inj result
        have declared : Carries s true (.within false) .reads importDeclaration importDeclaration :=
          inferInstance
        obtain ⟨ranImport', knowsBehind, indentation⟩ := declared.persists.done knows ranImport
        obtain ⟨next', ahead', ranBlanks', between, same'⟩ :=
          (Between.same knowsBehind (indentation.trans outside)).locatedBlanks ranBlanks
        obtain ⟨after', r', ranOthers', between'⟩ :=
          ih (Nat.le_of_succ_le_succ le) between same' ranOthers
        refine ⟨after', r', ?_, between'⟩
        exact bind_done.mpr ⟨_, _, looked', bind_done.mpr ⟨_, _, ranImport',
          bind_done.mpr ⟨_, _, ranBlanks', bind_done.mpr ⟨_, _, ranOthers', rfl⟩⟩⟩⟩

/-! ## Declarations -/

/-- The entries that are no comments. -/
def solidEntries (entries : List (Located TopLevel)) : List (Located TopLevel) :=
  entries.filter fun entry => !entry.value.isComment

/-- Comments leave no entries. -/
@[simp]
theorem solidEntries_commentEntries (comments : Located Comments) :
    solidEntries (commentEntries comments) = [] := by
  simp [solidEntries, commentEntries, TopLevel.isComment]

/-- The entries of two runs follow one another. -/
@[simp]
theorem solidEntries_append (first second : List (Located TopLevel)) :
    solidEntries (first ++ second) = solidEntries first ++ solidEntries second :=
  List.filter_append first second

/-- A round of the repetition of declarations. -/
theorem declarationsUpTo_succ {input : Input} {bound : Nat} {next : Token}
    {entry : Located TopLevel} {comments : Located Comments} {others : List (Located TopLevel)}
    (found : input.tokenAt? start.index = some next) (notEnd : next.kind ≠ .eof)
    (ranEntry : topLevel input start = .done entry l)
    (ranBlanks : located whitespace input l = .done comments r)
    (ranOthers : declarationsUpTo bound input r = .done others stop) :
    declarationsUpTo (bound + 1) input start = .done
      (entry :: (commentEntries comments ++ others)) stop := by
  rw [declarationsUpTo, bind_apply, peek_apply, found]
  dsimp only
  rw [if_neg notEnd]
  exact bind_done.mpr ⟨_, _, ranEntry,
    bind_done.mpr ⟨_, _, ranBlanks, bind_done.mpr ⟨_, _, ranOthers, rfl⟩⟩⟩

/-- A cursor at the end of the shorter source is behind all its other tokens. -/
theorem index_of_eof {token : Token} (place : s.short.At stop)
    (found : s.short.tokenAt? stop.index = some token) (ends : token.kind = .eof) :
    stop.index = s.count := by
  obtain ⟨_, next, _, stands⟩ := place
  obtain rfl := Option.some.inj (stands.tokenAt?.symm.trans found)
  have here : s.short.tokens[stop.index]? = some next := by
    rw [← Array.getElem?_toList, stands.tokens, stands.index]
    simp
  have first := s.scannedShort.size_of_eof here ends
  have second := s.scannedShort.size_of_eof s.ends rfl
  omega

/-- Behind a declaration the runs are between two parts again: the declarations that are left
conclude. -/
theorem blanks_behind {bound : Nat} {comments : Located Comments}
    {entries : List (Located TopLevel)} (along : s.Along start) (outside : start.indentation = [])
    (ranBlanks : located whitespace s.short start = .done comments l)
    (ranEntries : declarationsUpTo bound s.short l = .done entries stop) :
    ∃ comments' r, located whitespace s.long start = .done comments' r ∧ s.Between true l r ∧
      (start.index ≤ r.index ∨ s.count ≤ r.index) := by
  have blanks := (located_done ranBlanks).2
  rcases along.whitespace with ⟨_, _, run, runLong, along', indentation, index, -, -, ahead⟩ |
    ⟨-, _, _, _, _, run, runLong, parted⟩
  · obtain ⟨-, rfl⟩ := Outcome.done.inj (blanks.symm.trans run)
    obtain ⟨concludes, -, place, _, found, ends⟩ :=
      declarationsUpTo_concludes s.scannedShort along'.placeShort ranEntries
    have closes := closes_of_concludes concludes (index_of_eof place found ends)
    exact ⟨_, _, locatedWhitespace_eq runLong,
      .same ⟨⟨along', closes⟩, fun _ => ahead⟩ (indentation.trans outside), .inl index⟩
  · obtain ⟨-, rfl⟩ := Outcome.done.inj (blanks.symm.trans run)
    rw [outside] at parted
    refine ⟨_, _, locatedWhitespace_eq runLong, .parted parted, .inr ?_⟩
    rw [parted.right]
    exact s.count_le

/-- What is behind the declarations of the shorter input is read where the long run goes on. -/
theorem declarations_between {bound bound' : Nat} {entries : List (Located TopLevel)}
    (remains : s.Remains others last) (between : s.Between true l r)
    (enough : s.long.tokens.size - r.index < bound')
    (run : declarationsUpTo bound s.short l = .done entries stop) :
    ∃ entries', declarationsUpTo bound' s.long r = .done entries' last ∧
      solidEntries entries' = solidEntries entries ++ solidEntries others := by
  induction bound generalizing bound' entries l r with
  | zero => cases run
  | succ bound ih =>
    obtain ⟨bound', rfl⟩ : ∃ more, bound' = more + 1 := ⟨bound' - 1, by omega⟩
    obtain ⟨next, here, looked, rest⟩ := bind_done.mp run
    obtain ⟨found, rfl⟩ := peek_done looked
    cases between with
    | parted parted =>
      obtain ⟨rfl, rfl, -⟩ := parted
      obtain rfl := Option.some.inj (s.tokenAt?_count.symm.trans found)
      rw [if_pos rfl] at rest
      obtain ⟨rfl, -⟩ := Outcome.done.inj rest
      exact ⟨others, remains.reads _ enough, rfl⟩
    | same knows outside =>
      have along := knows.1.toAlong
      have inside : r.index < s.count := lt_count_of_ahead (knows.2 rfl)
      obtain ⟨token, -, foundShort, foundLong⟩ := s.tokenAt?_of_lt inside
      obtain rfl := Option.some.inj (found.symm.trans foundShort)
      have notEnd : next.kind ≠ .eof :=
        fun ends => Nat.ne_of_lt inside (index_of_eof along.placeShort found ends)
      rw [if_neg notEnd] at rest
      obtain ⟨entry, behind, ranEntry, rest⟩ := bind_done.mp rest
      obtain ⟨comments, after, ranBlanks, rest⟩ := bind_done.mp rest
      obtain ⟨later, _, ranLater, made⟩ := bind_done.mp rest
      obtain ⟨rfl, rfl⟩ := Outcome.done.inj made
      obtain ⟨ranEntry', alongBehind, indentation⟩ :=
        topLevel_persists.done ⟨knows.1, by simp⟩ ranEntry
      obtain ⟨-, further⟩ := (Input.Finishes.of_steps s.scannedShort fun _ => topLevel_steps).done
        along.placeShort ranEntry
      obtain ⟨comments', r', ranBlanks', between', index⟩ :=
        blanks_behind alongBehind (indentation.trans outside) ranBlanks ranLater
      have left : s.long.tokens.size - r'.index < bound' := by
        obtain ⟨_, _, _, stands⟩ := along.place
        have lt := stands.index_lt
        omega
      obtain ⟨entries', ranLater', same⟩ := ih between' left ranLater
      refine ⟨_, declarationsUpTo_succ foundLong notEnd ranEntry' ranBlanks' ranLater', ?_⟩
      show solidEntries ([entry] ++ (commentEntries comments' ++ entries')) =
        solidEntries ([entry] ++ (commentEntries comments ++ later)) ++ solidEntries others
      simp only [solidEntries_append, solidEntries_commentEntries, List.nil_append, same,
        List.append_assoc]

/-! ## Whole sources -/

/-- Two runs may begin at the start of a source that is read to its end. -/
theorem ready_start {found : Module} (run : module s.short .start = .done found stop) :
    s.Ready .start := by
  have along : s.Along .start :=
    ⟨s.scannedLong.at_start, Nat.zero_le _, Nat.zero_le _, Nat.le_refl _, Nat.le_refl _,
      Int.le_refl _⟩
  obtain ⟨last, concludes, place, _, found, ends⟩ := module_concludes s.scannedShort run
  exact ⟨along, closes_of_concludes concludes (index_of_eof place found ends)⟩

/-- A module that is read from the shorter source goes on: the longer source has its header and its
imports, and behind its entries those that begin behind it. -/
theorem module_between {found : Module} (remains : s.Remains others last)
    (run : module s.short .start = .done found stop) :
    ∃ found', module s.long .start = .done found' last ∧ found'.header = found.header ∧
      found'.imports = found.imports ∧
      solidEntries found'.body = solidEntries found.body ++ solidEntries others := by
  have ready := ready_start run
  obtain ⟨initial, first, ranInitial, rest⟩ := bind_done.mp run
  obtain ⟨header, second, ranHeader, rest⟩ := bind_done.mp rest
  obtain ⟨pending, third, ranPending, rest⟩ := bind_done.mp rest
  obtain ⟨⟨imports, after⟩, fourth, ranImports, rest⟩ := bind_done.mp rest
  obtain ⟨declarations, fifth, ranDeclarations, rest⟩ := bind_done.mp rest
  obtain ⟨_, _, _, made⟩ := bind_done.mp rest
  obtain ⟨rfl, rfl⟩ := Outcome.done.inj made
  have begins : s.Between false .start .start := .same ⟨ready, by simp⟩ rfl
  obtain ⟨initial', first', ranInitial', atFirst, -⟩ := begins.blanks ranInitial
  obtain ⟨second', ranHeader', atSecond⟩ := header_between atFirst ranHeader
  obtain ⟨pending', third', ranPending', atThird, same⟩ := atSecond.locatedBlanks ranPending
  obtain ⟨after', fourth', ranImports', atFourth⟩ :=
    imports_between s.repetition_le atThird same ranImports
  have enough : s.long.tokens.size - fourth'.index < s.long.repetitionLimit := by
    unfold Input.repetitionLimit
    omega
  obtain ⟨declarations', ranDeclarations', entries⟩ :=
    declarations_between remains atFourth enough ranDeclarations
  refine ⟨⟨initial', header, imports, commentEntries after' ++ declarations'⟩, ?_, rfl, rfl, ?_⟩
  · exact bind_done.mpr ⟨_, _, ranInitial', bind_done.mpr
        ⟨_, _, ranHeader', bind_done.mpr ⟨_, _, ranPending', bind_done.mpr ⟨_, _, ranImports',
      bind_done.mpr ⟨_, _, ranDeclarations', bind_done.mpr ⟨_, _, remains.ends, rfl⟩⟩⟩⟩⟩⟩
  · simp only [solidEntries_append, solidEntries_commentEntries, List.nil_append, entries]

end Grammar

end Marginalia
