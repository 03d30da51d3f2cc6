import Marginalia.Proofs.Spelling.Source
import Marginalia.Proofs.Tiling.Module

/-!
# Spans tile the source

The spans of a tree that is read begin and end with tokens and lie inside and beside each other as
the parts of the tree do. At the top level nothing but comments stands outside of the header, the
imports and the declarations: every other token stands in exactly one of them.
-/

namespace Marginalia

open Marginalia.Parser

variable {α β : Type}

/-! ## Filled stretches -/

/-- The outlines lie in the stretch between two cursors in a row, and all tokens there except
comments stand in them. -/
structure Filled (input : Input) (start : Cursor) (outlines : List Outline)
    (stop : Cursor) : Prop where
  /-- The stretch does not end before it begins. -/
  le : start.index ≤ stop.index
  /-- The outlines lie in the stretch. -/
  row : Row input.tokens.toList start.position.offset outlines stop.position.offset
  /-- The tokens of the stretch stand in the outlines. -/
  covered : ∀ index token, start.index ≤ index → index < stop.index → input.tokens.toList[index]? =
      some token → token.isComment = false → ∃ outline ∈ outlines, outline.covers token = true

namespace Filled

variable {input : Input} {start middle stop : Cursor} {first second : List Outline}

/-- What fills two stretches, one behind the other, fills both together. -/
theorem append (filled : Filled input start first middle)
    (further : Filled input middle second stop) : Filled input start (first ++ second) stop := by
  refine ⟨Nat.le_trans filled.le further.le, filled.row.append further.row, ?_⟩
  intro index token lower upper found solid
  by_cases early : index < middle.index
  · obtain ⟨outline, member, covers⟩ := filled.covered index token lower early found solid
    exact ⟨outline, List.mem_append_left _ member, covers⟩
  · obtain ⟨outline, member, covers⟩ := further.covered index token (by omega) upper found solid
    exact ⟨outline, List.mem_append_right _ member, covers⟩

/-- Nothing fills a stretch without tokens. -/
theorem nil (input : Input) (cursor : Cursor) : Filled input cursor [] cursor := by
  refine ⟨Nat.le_refl _, .nil _ (Nat.le_refl _), ?_⟩
  intro index token lower upper
  omega

end Filled

/-- A token between two cursors stands between their places. -/
theorem Input.At.encloses {input : Input} (scanned : input.Scanned) {start stop : Cursor}
    (place : input.At start) (place' : input.At stop) {index : Nat} {token : Token}
    (lower : start.index ≤ index) (upper : index < stop.index)
    (found : input.tokens.toList[index]? = some token) :
    start.position.offset ≤ token.span.start.offset ∧
    token.span.stop.offset ≤ stop.position.offset := by
  obtain ⟨_, next, _, stands⟩ := place
  obtain ⟨_, _, _, stands'⟩ := place'
  obtain ⟨inside, same⟩ := List.getElem?_eq_some_iff.mp found
  have split : input.tokens.toList = input.tokens.toList.take index ++ token ::
        input.tokens.toList.drop (index + 1) := by
    rw [← same, ← List.drop_eq_getElem_cons inside, List.take_append_drop]
  have here : input.Stands ⟨index, token.span.start, []⟩ _ token _ :=
    ⟨split, (List.length_take_of_le (Nat.le_of_lt inside)).symm, .inl rfl⟩
  constructor
  · by_cases first : start.index = index
    · obtain ⟨-, rfl, -⟩ := stands.unique here first
      exact (stands.bounds scanned).2
    · exact Nat.le_of_lt (stands.offset_lt scanned here (by show start.index < index; omega))
  · obtain ⟨more, read, left⟩ := here.between stands' upper
    have lower := (stands'.bounds scanned).1
    rw [read, stopAfter_append, stopAfter] at lower
    cases here.ordered scanned with
    | cons _ _ _ further =>
      rw [left] at further
      exact Nat.le_trans further.after.2 lower

/-- A successful run fills what it reads with the outlines of its value. -/
def Fills (input : Input) (outlines : List Outline) (parser : Parser α)
    (made : α → List Outline) : Prop :=
  ∀ start, input.At start → ∀ value stop, parser input start = .done value stop →
    input.At stop ∧ ∃ more, Filled input start more stop ∧ made value = outlines ++ more

section Parsers

variable {input : Input} {outlines : List Outline} {parser : Parser α} {next : α → Parser β}
  {made : α → List Outline}

/-- A sequence goes on with what its first parser fills. -/
theorem Fills.bind {others : β → List Outline} (fills : Fills input [] parser made)
    (goesOn : ∀ value, Fills input (outlines ++ made value) (next value) others) :
    Fills input outlines (parser >>= next) others := by
  intro start place result stop run
  obtain ⟨value, between, runFirst, runSecond⟩ := bind_done.mp run
  obtain ⟨place', more, filled, same⟩ := fills start place value between runFirst
  obtain ⟨place'', further, filled', same'⟩ := goesOn value between place' result stop runSecond
  rw [same, List.nil_append, List.append_assoc] at same'
  exact ⟨place'', more ++ further, filled.append filled', same'⟩

/-- A parser that does not move fills nothing. -/
theorem Fills.still (still : ∀ start value stop, parser input start = .done value stop →
      stop = start) : Fills input [] parser fun _ => [] := by
  intro start place value stop run
  obtain rfl := still start value stop run
  exact ⟨place, [], .nil input _, rfl⟩

/-- A value is made of everything that was filled. -/
theorem Fills.pure {value : α} (same : made value = outlines) :
    Fills input outlines (pure value) made := by
  intro start place result stop run
  obtain ⟨rfl, rfl⟩ := Outcome.done.inj run
  exact ⟨place, [], .nil input _, by rw [same, List.append_nil]⟩

/-- An optional value fills what the value does. -/
theorem Fills.optional (fills : Fills input [] parser made) :
    Fills input [] (optional parser) (·.elim [] made) := by
  intro start place value stop run
  rcases optional_done run with ⟨inner, rfl, runInner⟩ | ⟨rfl, rfl⟩
  · exact fills start place inner stop runInner
  · exact ⟨place, [], .nil input _, rfl⟩

/-- A parser fills the same under another reference. -/
theorem Fills.withReference (fills : Fills input [] parser made) :
    Fills input [] (withReference parser) made := by
  intro start place value stop run
  obtain ⟨after, runInner, rfl⟩ := withReference_done run
  obtain ⟨place', more, filled, same⟩ := fills _ (place.reindent _) value after runInner
  exact ⟨place'.reindent _, more, ⟨filled.le, filled.row, filled.covered⟩, same⟩

variable (scanned : input.Scanned)

include scanned

/-- Blanks and comments need no filling. -/
theorem whitespace_fills : Fills input [] whitespace fun _ => [] := by
  intro start place comments stop run
  have skips : Lays input start [] .loose .loose whitespace (outlined fun _ => []) :=
    whitespace_lays scanned
  obtain ⟨⟨place', -, le⟩, more, row, same⟩ := skips start place trivial comments stop run
  obtain ⟨before, next, after, stands⟩ := place
  obtain ⟨skipped, solid, rest, split, areComments, notComment⟩ := stands.split_comments scanned
  have tokens : input.tokens.toList = before ++ (skipped ++ solid :: rest) := by
    rw [stands.tokens, split]
  have again := whitespace_apply tokens stands.index areComments notComment
  obtain ⟨-, rfl⟩ := Outcome.done.inj (again.symm.trans run)
  refine ⟨place', [], ⟨le, .nil _ row.le, ?_⟩, rfl⟩
  intro index token lower upper found isSolid
  have upper' : index < before.length + skipped.length := upper
  rw [stands.index] at lower
  rw [tokens, List.getElem?_append_right lower, List.getElem?_append_left (by omega)] at found
  rw [areComments token (List.mem_of_getElem? found)] at isSolid
  cases isSolid

/-- Located blanks and comments need no filling. -/
theorem locatedWhitespace_fills : Fills input [] (located whitespace) fun _ => [] := by
  intro start place comments stop run
  exact whitespace_fills scanned start place comments.value stop (located_done run).2

/-- A located value is a node that fills what its run reads. -/
theorem Fills.located {node : Located α → List Outline}
    {described : α → List Outline → Cursor → Prop}
    (lays : ∀ origin, Lays input origin [] .fresh .ended parser described)
    (fits : ∀ value found stop, described value found stop →
      ∀ span, node ⟨span, value⟩ = [.part span found]) : Fills input [] (located parser) node := by
  intro start place value stop run
  obtain ⟨⟨place', ⟨begun, behind⟩, le⟩, more, row, same, spanned⟩ :=
    (lays start).located start place ⟨rfl, rfl⟩ value stop run
  have single : node value = [.part ⟨start.position, stop.position⟩ more] := by
    rw [← spanned]
    exact fits value.value more stop same value.span
  refine ⟨place', _, ⟨le, row.around scanned place place' begun behind, ?_⟩, single⟩
  intro index token lower upper found _
  obtain ⟨starts, stops⟩ := Input.At.encloses scanned place place' lower upper found
  exact ⟨_, .head _, by simp [Outline.covers, Outline.span, starts, stops]⟩

end Parsers

end Marginalia

namespace Marginalia.Grammar

open Marginalia.Parser

variable {α : Type} {input : Input} {origin : Cursor} (scanned : input.Scanned)

include scanned

/-- The header fills what it reads. -/
theorem moduleHeader_fills : Fills input [] moduleHeader (·.outlines fun _ => []) :=
  .located scanned (headerParts_solid scanned) fun _ _ _ same span =>
    congrArg (fun inside => [Outline.part span inside]) same

/-- An import fills what it reads. -/
theorem importDeclaration_fills : Fills input [] importDeclaration (·.outlines fun _ => []) :=
  .located scanned (importParts_solid scanned) fun _ _ _ same span =>
    congrArg (fun inside => [Outline.part span inside]) same

/-- Imports fill what they read, one after the other. -/
theorem importsUpTo_fills (bound : Nat) (pending : Located Comments) :
    Fills input [] (importsUpTo bound pending) (·.1.flatMap (·.value.outlines fun _ => [])) := by
  induction bound generalizing pending with
  | zero =>
    intro start _ value stop run
    cases run
  | succ bound ih =>
    apply Fills.bind (.still fun _ _ _ run => (peekThat_done run).1)
    intro isImport
    split
    · apply Fills.bind (importDeclaration_fills scanned)
      intro declaration
      apply Fills.bind (locatedWhitespace_fills scanned)
      intro comments
      apply Fills.bind (ih comments)
      rintro ⟨rest, last⟩
      exact .pure (by simp [Commented.pre])
    · exact .pure rfl

/-- What stands alone in a source is laid out as itself. -/
theorem whole_lays {parser : Parser α} {outlines : α → List Outline}
    (solid : Solid input parser outlines) :
    Lays input origin [] .loose .loose (whole parser) (outlined (outlines ·.value)) := by
  have ends : Lays input origin [] .loose .loose eof (outlined fun _ => []) := by
    refine .still fun start _ stop run => ?_
    obtain ⟨_, -, -, same⟩ := eof_done run
    exact same
  apply Lays.bind (whitespace_lays scanned)
  intro before
  apply Lays.bind (solid.lays .loose).withReference
  intro value
  apply Lays.bind (whitespace_lays scanned)
  intro after
  apply Lays.bind ends
  intro _
  exact .pure fun _ => by simp [outlined]

/-- The parts among entries at the top level. -/
def entryParts (entries : List (Located TopLevel)) : List Outline :=
  (entries.flatMap TopLevel.outlines).filter Outline.isPart

omit scanned in
/-- The parts among entries follow each other as the entries do. -/
theorem entryParts_append (first second : List (Located TopLevel)) :
    entryParts (first ++ second) = entryParts first ++ entryParts second := by
  rw [entryParts, List.flatMap_append, List.filter_append]
  rfl

omit scanned in
/-- There are no parts among comments. -/
theorem entryParts_comments (comments : Located Comments) :
    entryParts (commentEntries comments) = [] := by
  rw [entryParts, List.filter_eq_nil_iff]
  intro outline member
  simp only [commentEntries, List.flatMap_map, List.mem_flatMap, TopLevel.outlines,
    List.mem_singleton] at member
  obtain ⟨comment, -, rfl⟩ := member
  exact Bool.false_ne_true

/-- An entry at the top level fills what it reads. -/
theorem topLevel_fills : Fills input [] topLevel fun entry => entryParts [entry] := by
  have place : Fills input [] position fun _ => [] :=
    .still fun _ _ _ run => (Outcome.done.inj run).2.symm
  apply place.bind
  intro place
  split
  · intro start _ value stop run
    exact absurd run (fail_ne_done _ _ _ _ _)
  · apply Fills.withReference
    apply Fills.located scanned fun origin => entry_lays scanned
    rintro value found stop ⟨rfl, notComment⟩ span
    cases value with
    | comment comment => exact absurd rfl (notComment comment)
    | _ => rfl

/-- Declarations fill what they read, one after the other. -/
theorem declarationsUpTo_fills (bound : Nat) :
    Fills input [] (declarationsUpTo bound) entryParts := by
  induction bound with
  | zero =>
    intro start _ value stop run
    cases run
  | succ bound ih =>
    apply Fills.bind (.still fun _ _ _ run => (peek_done run).2)
    intro next
    split
    · exact .pure rfl
    · apply Fills.bind (topLevel_fills scanned)
      intro entry
      apply Fills.bind (locatedWhitespace_fills scanned)
      intro comments
      apply Fills.bind ih
      intro rest
      apply Fills.pure
      rw [← List.singleton_append, entryParts_append, entryParts_append, entryParts_comments]
      simp

/-- A whole source file fills what it reads. -/
theorem module_fills :
    Fills input [] module fun module => module.outlines.filter Outline.isPart := by
  have imports (pending : Located Comments) :
      Fills input [] (fun input => importsUpTo input.repetitionLimit pending input) (·.1.flatMap
        (·.value.outlines fun _ => [])) := importsUpTo_fills scanned input.repetitionLimit pending
  have declarations :
      Fills input [] (fun input => declarationsUpTo input.repetitionLimit input) entryParts :=
    declarationsUpTo_fills scanned input.repetitionLimit
  have ends : Fills input [] eof fun _ => [] := by
    refine .still fun start value stop run => ?_
    obtain ⟨_, -, -, same⟩ := eof_done run
    exact same
  apply Fills.bind (whitespace_fills scanned)
  intro initial
  apply Fills.bind (moduleHeader_fills scanned).optional
  intro header
  apply Fills.bind (locatedWhitespace_fills scanned)
  intro pending
  apply Fills.bind (imports pending)
  rintro ⟨found, last⟩
  apply Fills.bind declarations
  intro entries
  apply Fills.bind ends
  intro _
  apply Fills.pure
  have body : entryParts (commentEntries last ++ entries) = entryParts entries := by
    rw [entryParts_append, entryParts_comments, List.nil_append]
  have allParts : (header.elim [] (·.outlines fun _ => []) ++
        found.flatMap (·.value.outlines fun _ => [])).filter Outline.isPart = header.elim []
        (·.outlines fun _ => []) ++ found.flatMap (·.value.outlines fun _ => []) := by
    rw [List.filter_eq_self]
    intro outline member
    rcases List.mem_append.mp member with inHeader | inImports
    · cases header with
      | none => cases inHeader
      | some header =>
        obtain rfl := List.mem_singleton.mp inHeader
        rfl
    · obtain ⟨entry, -, isPart⟩ := List.mem_flatMap.mp inImports
      obtain rfl := List.mem_singleton.mp isPart
      rfl
  rw [Module.outlines, ← List.append_assoc, List.filter_append, allParts]
  simp only [List.nil_append, List.append_nil]
  exact congrArg (_ ++ ·) body

end Marginalia.Grammar

namespace Marginalia

/-- Of parts that stand beside each other only one has room for a token that is not empty. -/
theorem countP_covers {outlines : List Outline} {token : Token}
    (apart : outlines.Pairwise Outline.Before)
    (wide : token.span.start.offset < token.span.stop.offset)
    (covered : ∃ outline ∈ outlines, outline.covers token = true) :
    outlines.countP (·.covers token) = 1 := by
  induction apart with
  | nil => simp at covered
  | @cons first rest before _ ih =>
    by_cases here : first.covers token = true
    · have none : rest.countP (·.covers token) = 0 := by
        rw [List.countP_eq_zero]
        intro other member there
        have apart : first.span.stop.offset ≤ other.span.start.offset := before other member
        simp only [Outline.covers, Bool.and_eq_true, decide_eq_true_eq] at here there
        omega
      rw [List.countP_cons, if_pos here, none]
    · obtain ⟨outline, member, covers⟩ := covered
      rw [List.countP_cons, if_neg here]
      cases member with
      | head => exact absurd covers here
      | tail _ inRest => exact ih ⟨outline, inRest, covers⟩

/-- Every token of a source except its end is not empty. -/
theorem Scan.Divides.wide {position : Position} {text : Text} {found : List Token}
    (divides : Scan.Divides position text found) :
    ∀ token ∈ found, token.kind ≠ .eof → token.span.start.offset < token.span.stop.offset := by
  induction divides with
  | done position => simp
  | blank _ _ ih => exact ih
  | @token position u tail _ _ _ _ _ _ ih =>
    intro token member solid
    cases member with
    | head =>
      show position.offset < (position.advance (u :: tail)).offset
      rw [Position.offset_advance]
      simp
    | tail _ inRest => exact ih token inRest solid

/-- Whatever fills the source of a module, its outlines tile the tokens. -/
theorem Module.outlines_tile {input : Input} {start stop : Cursor} {module : Module}
    (filled : Filled input start (module.outlines.filter Outline.isPart) stop) :
    ∀ outline ∈ module.outlines, outline.Tiles input.tokens.toList := by
  intro outline member
  cases outline with
  | comment span => exact .comment span
  | part span inside => exact filled.row.tiles _ (List.mem_filter.mpr ⟨member, rfl⟩)

/-- The spans of an expression or a module that is read tile the tokens of its source: each begins
and ends with a token and is not empty, what is inside a part lies inside its span, and the parts
there stand beside each other in order. In a module every token except comments stands in exactly
one of the header, the imports and the declarations. -/
theorem parse_tiles (source : Text) :
    (∀ expression, Expression.parse source = .ok expression → ∃ tokens, Token.scan source =
      .ok tokens ∧ ∀ outline ∈ expression.value.outlines, outline.Tiles tokens) ∧
    (∀ module, Module.parse source = .ok module → ∃ tokens, Token.scan source = .ok tokens ∧
      (∀ outline ∈ module.outlines, outline.Tiles tokens) ∧
      (module.outlines.filter Outline.isPart).Pairwise Outline.Before ∧ ∀ token ∈ solidOf tokens,
      (module.outlines.filter Outline.isPart).countP (·.covers token) = 1) := by
  constructor
  · intro expression read
    obtain ⟨input, stop, same, scan, run⟩ := run_eq_ok read
    have scanned := Input.Scanned.of_scan same scan
    have lays :
        Lays input .start [] .loose .loose (Grammar.whole Grammar.expression) (outlined fun found =>
          found.value.outlines) := Grammar.whole_lays scanned (Grammar.expression_solid scanned)
    obtain ⟨-, more, row, laid⟩ := lays .start scanned.at_start trivial expression stop run
    have found : expression.value.outlines = more := laid
    refine ⟨input.tokens.toList, scan, ?_⟩
    rw [found]
    exact row.tiles
  · intro module read
    obtain ⟨input, stop, same, scan, run⟩ := run_eq_ok read
    have scanned := Input.Scanned.of_scan same scan
    obtain ⟨-, parts, filled, made⟩ :=
      Grammar.module_fills scanned .start scanned.at_start module stop run
    have isParts : module.outlines.filter Outline.isPart = parts := made
    have apart : (module.outlines.filter Outline.isPart).Pairwise Outline.Before := by
      have apart := filled.row.apart
      rw [← isParts] at apart
      simpa only [List.filter_filter, Bool.and_self] using apart
    refine ⟨input.tokens.toList, scan, Module.outlines_tile (isParts ▸ filled), apart, ?_⟩
    · intro token member
      obtain ⟨inside, isSolid⟩ := List.mem_filter.mp member
      simp only [Bool.and_eq_true, Bool.not_eq_true', bne_iff_ne, ne_eq] at isSolid
      obtain ⟨index, isToken⟩ := List.mem_iff_getElem?.mp inside
      have read : index < stop.index := by
        obtain ⟨last, found, isEnd⟩ := module_reachesEnd input .start module stop run
        by_contra later
        apply isSolid.2
        apply scanned.drop_of_eof found isEnd token
        rw [List.mem_iff_getElem?]
        refine ⟨index - stop.index, ?_⟩
        rw [List.getElem?_drop, Nat.add_sub_cancel' (by omega), isToken]
      have covered := filled.covered index token (Nat.zero_le _) read isToken isSolid.1
      rw [← isParts] at covered
      exact countP_covers apart (Scan.Divides.wide scanned token inside isSolid.2) covered

/-- The spans of a module with a header, an import, comments and all sorts of nodes tile its
tokens. -/
theorem branching_module_tiles :
    ∃ module, Module.parse
      "module M exposing(..)\nimport A--c\nf x=case x.y of\n B z->let\n   w=1+z\n  in w\n" =
      .ok module ∧ ∃ tokens, Token.scan
      "module M exposing(..)\nimport A--c\nf x=case x.y of\n B z->let\n   w=1+z\n  in w\n" =
      .ok tokens ∧ (∀ outline ∈ module.outlines, outline.Tiles tokens) ∧
      (module.outlines.filter Outline.isPart).Pairwise Outline.Before ∧ ∀ token ∈ solidOf tokens,
      (module.outlines.filter Outline.isPart).countP (·.covers token) = 1 := by
  obtain ⟨module, read⟩ := ok_of_isOk (show (Module.parse
      "module M exposing(..)\nimport A--c\nf x=case x.y of\n B z->let\n   w=1+z\n  in w\n").isOk =
      true by decide +kernel)
  exact ⟨module, read, (parse_tiles _).2 module read⟩

end Marginalia
