import Marginalia.Proofs.Parts.Ensures
import Marginalia.Proofs.Parts.Verbatim

/-!
# Repetitions, sequences and words

What the combinators ensure that run a parser again and again, and what is known of the names,
operators and arguments that the rules of the grammar read.
-/

namespace Marginalia

open Marginalia.Parser Marginalia.Grammar

variable {α β : Type} {input : Input} {levels : List Nat} {least : Nat} {start : Cursor}

/-! ## Repetition -/

/-- What is read again and again ensures whatever holds of no value and goes on from each value to
those behind it. -/
theorem Ensures.manyChain {parser : Parser α} {told : Cursor → α → Cursor → Prop}
    {motive : Cursor → List α → Cursor → Prop}
    (ensures : ∀ start, Ensures input levels least least start parser (told start))
    (nil : ∀ cursor, motive cursor [] cursor)
    (cons : ∀ {start value between rest stop}, told start value between → motive between rest stop →
      motive start (value :: rest) stop) :
    Ensures input levels least least start (many parser) (motive start) := by
  have upTo : ∀ bound start, Ensures input levels least least start
        (valuesUpTo (some <$> parser) bound) (motive start) := by
    intro bound
    induction bound with
    | zero =>
      intro start level values stop run
      cases run
    | succ bound ih =>
      intro start level values stop run
      rcases valuesUpTo_some_done run with ⟨rfl, rfl⟩ | ⟨value, between, first, ends⟩
      · exact ⟨level, nil _⟩
      · obtain ⟨level', holds⟩ := ensures start level value between first
        rcases ends with ⟨rfl, rfl⟩ | ⟨rest, rfl, further⟩
        · exact ⟨level', cons holds (nil _)⟩
        · obtain ⟨level'', others⟩ := ih between level' rest stop further
          exact ⟨level'', cons holds others⟩
  exact upTo input.repetitionLimit start

/-- What is read again and again ensures of each value what one run does. -/
theorem Ensures.many {parser : Parser α} {told : α → Prop}
    (ensures : ∀ start, Ensures input levels least least start parser fun value _ => told value) :
    Ensures input levels least least start (many parser) fun values _ => ∀ value ∈ values,
      told value := by
  refine .manyChain (motive := fun _ values _ => ∀ value ∈ values, told value) ensures
    (fun _ => List.forall_mem_nil _) fun holds others => ?_
  exact List.forall_mem_cons.mpr ⟨holds, others⟩

/-- What reads a token whenever it succeeds is read again and again until it fails. -/
theorem Ensures.manyUntil {parser : Parser α} {told : α → Prop}
    (ensures : ∀ count start, least ≤ count →
      Ensures input levels count (count + 1) start parser fun value _ => told value) :
    Ensures input levels least least start (Parser.many parser) fun values stop =>
      (∀ value ∈ values, told value) ∧ ∀ value after, parser input stop ≠ .done value after := by
  have upTo : ∀ bound start, Ensures input levels least least start
        (valuesUpTo (some <$> parser) bound) fun values stop => (∀ value ∈ values, told value) ∧
        ∀ value after, parser input stop ≠ .done value after := by
    intro bound
    induction bound with
    | zero =>
      intro start level values stop run
      cases run
    | succ bound ih =>
      intro start level values stop run
      cases found : parser input start with
      | failed failure after =>
        rcases valuesUpTo_some_done run with ⟨rfl, rfl⟩ | ⟨value, between, first, -⟩
        · refine ⟨level, List.forall_mem_nil _, fun value after same => ?_⟩
          rw [found] at same
          cases same
        · rw [found] at first
          cases first
      | done value between =>
        obtain ⟨further, holds⟩ :=
          ensures start.index start level.index ⟨level.place, level.indentation,
            Nat.le_refl _⟩ value between found
        have moved : between.movedFrom start = true := by
          have later := further.index
          have differs : between.index ≠ start.index := by omega
          simp [Cursor.movedFrom, differs]
        have inner : (some <$> parser) input start = .done (some value) between := by
          show (parser >>= fun value => Pure.pure (some value)) input start = _
          rw [bind_apply, found]
          rfl
        have goesOn : valuesUpTo (some <$> parser) (bound + 1) input start = (valuesUpTo
              (some <$> parser) bound >>= fun rest => Pure.pure (value :: rest)) input between := by
          simp only [valuesUpTo, bind_apply, cursor, Parser.optional, inner, moved, if_true]
        rw [goesOn] at run
        obtain ⟨rest, _, runRest, made⟩ := bind_done.mp run
        obtain ⟨rfl, rfl⟩ := Outcome.done.inj made
        have level' := further.mono (Nat.le_trans level.index (Nat.le_succ _))
        obtain ⟨level'', others, refused⟩ := ih between level' rest _ runRest
        exact ⟨level'', List.forall_mem_cons.mpr ⟨holds, others⟩, refused⟩
  exact upTo input.repetitionLimit start

/-- A parser that fails at a cursor is not read again and again there. -/
theorem many_eq_nil {parser : Parser α} {stop : Cursor} {values : List α}
    (refused : ∀ value after, parser input start ≠ .done value after)
    (run : many parser input start = .done values stop) : values = [] := by
  rcases valuesUpTo_some_done (show valuesUpTo (some <$> parser) (2 * input.tokens.size +
      input.source.length + 1 + 1) input start = .done values stop from run) with ⟨rfl, -⟩ |
    ⟨value, between, first, -⟩
  · rfl
  · exact absurd first (refused value between)

/-- An optional value is absent only where its parser fails. -/
theorem optional_none {parser : Parser α} {stop : Cursor}
    (run : optional parser input start = .done none stop) :
    ∀ value after, parser input start ≠ .done value after := by
  intro value after same
  unfold Parser.optional at run
  rw [same] at run
  cases run

section Sequences

variable (scanned : input.Scanned) {item : Parser α} {told : α → Prop} {close : TokenKind}
  (notEnd : close ≠ .eof) (label : String)

include scanned notEnd

/-- Items with commas between them ensure of each item what one run does. -/
theorem itemsUpTo_ensures
    (items : ∀ start, Ensures input levels least least start item fun value _ => told value)
    (bound : Nat) (before : Comments) (start : Cursor) :
    Ensures input levels least least start (itemsUpTo close item label bound before) fun found _ =>
      ∀ one ∈ found, told one.value := by
  induction bound generalizing before start with
  | zero =>
    intro level values stop run
    cases run
  | succ bound ih =>
    refine .bind (items start) fun value between holds => ?_
    refine .bind (whitespace_ensures scanned) fun after behind _ => ?_
    refine .ifPeek ?_ ?_
    · refine .bind (token_ensures scanned (by decide) _).stay fun _ _ _ => ?_
      refine .bind (whitespace_ensures scanned) fun next _ _ => ?_
      refine .bind (ih next _) fun rest _ others => ?_
      exact .pure (List.forall_mem_cons.mpr ⟨holds, others⟩)
    · refine .bind (token_ensures scanned notEnd _).stay fun _ _ _ => ?_
      exact .pure (List.forall_mem_singleton.mpr holds)

/-- A sequence up to its closing token ensures of each item what one run does. -/
theorem separated_ensures
    (items : ∀ start, Ensures input levels least least start item fun value _ => told value) :
    Ensures input levels least least start (separated close item label) fun found _ =>
      ∀ one ∈ found.items, told one.value := by
  refine .bind (whitespace_ensures scanned) fun before between _ => ?_
  refine .ifPeek ?_ ?_
  · refine .bind (token_ensures scanned notEnd _).stay fun _ _ _ => ?_
    exact .pure (List.forall_mem_nil _)
  · refine .map fun level found stop run => ?_
    exact itemsUpTo_ensures scanned notEnd label items input.repetitionLimit before between level
      found stop run

/-- A sequence in brackets tells of its stretch, and ensures of each item what one run does. -/
theorem group_ensures {opening : TokenKind} (notEndOpening : opening ≠ .eof) (items : ∀ start,
      Ensures input levels (least + 1) (least + 1) start item fun value _ => told value) :
    Ensures input levels least (least + 1) start (group opening close item label) fun found stop =>
      found.2 = input.source.crosses start.position stop.position ∧ ∀ one ∈ found.1.items,
        told one.value := by
  have inner : Ensures input levels least (least + 1) start
      (token opening label >>= fun _ => separated close item label)
      fun found _ => ∀ one ∈ found.items, told one.value :=
    .bind (token_ensures scanned notEndOpening _) fun _ _ _ =>
      separated_ensures scanned notEnd label items
  exact inner.trackNewline

end Sequences

/-! ## Behind a minus sign -/

namespace Scan

/-- A token that starts where a text does is read at the front of the text. -/
theorem Divides.front_of_start {position : Position} {text : Text} {found : List Token}
    (divides : Divides position text found) {token : Token} (member : token ∈ found)
    (solid : token.kind ≠ .eof) (starts : token.span.start.offset = position.offset) :
    ∃ u tail rest, text = u :: (tail ++ rest) ∧ token.lexeme = u :: tail ∧
      front u (tail ++ rest) = .ok (token.kind, tail.length + 1) := by
  cases divides with
  | done =>
    obtain rfl := List.mem_singleton.mp member
    exact absurd rfl solid
  | @blank _ u rest _ _ further =>
    have next := position.offset_step u
    have late := further.ordered.start_le token member
    omega
  | @token _ u tail rest kind tokens _ read further =>
    cases member with
    | head => exact ⟨u, tail, rest, rfl, rfl, read⟩
    | tail _ inRest =>
      have next := position.offset_advance (u :: tail)
      have late := further.ordered.start_le token inRest
      rw [List.length_cons] at next
      omega

/-- A minus sign is read alone only where no operator character follows. -/
theorem front_minus {u : CodeUnit} {rest : Text}
    (read : front (.ofChar '-') (u :: rest) = .ok (.operator, 1)) : u.isOperator = false := by
  by_contra isOperator
  rw [Bool.not_eq_false] at isOperator
  have noComment : opensWith "--" (.ofChar '-' :: u :: rest) = false := by
    by_contra opens
    rw [front_dashes (by simpa using opens)] at read
    cases read
  have notMinus : u ≠ .ofChar '-' := by
    rintro rfl
    cases noComment
  have goesOn : goesOnOperator u rest = true := by simp [goesOnOperator, isOperator, notMinus]
  rw [front_operator (by decide) noComment] at read
  have one := (Prod.mk.inj (Except.ok.inj read)).2
  obtain ⟨inside, after, split, reaches, -, -⟩ := operatorRun_takes (u :: rest)
  rw [split] at reaches one
  rw [operator_eq reaches] at one
  have some : inside.length ≠ 0 := by
    rw [← reaches, ← split, operatorRun_cons, if_pos goesOn]
    omega
  by_cases givesBack : GivesBackMinus (.ofChar '-' :: inside)
  · rw [if_pos givesBack] at one
    obtain ⟨init, rfl, splits⟩ := givesBack.tail
    obtain rfl : init = [] := List.eq_nil_of_length_eq_zero (by simpa using one)
    exact absurd splits (by decide)
  · rw [if_neg givesBack] at one
    omega

/-- A dot and an operator are made of operator characters. -/
theorem isOperator_of_front_symbol {u : CodeUnit} {tail rest : Text} {kind : TokenKind}
    (read : front u (tail ++ rest) = .ok (kind, tail.length + 1))
    (isSymbol : kind = .operator ∨ kind = .dot) : u.isOperator = true := by
  rcases isSymbol with rfl | rfl
  · exact isOperator_of_front read
  · obtain ⟨inside, after, same, length, token⟩ := front_takes read
    obtain ⟨rfl, rfl⟩ := List.append_inj same (by omega)
    obtain ⟨word, isDot, spelled⟩ := token.shape
    obtain rfl := Option.some.inj isDot
    rw [(List.cons.inj spelled).1]
    decide

/-- Directly behind a minus sign stands neither an operator nor a dot. -/
theorem Divides.behind_minus {position : Position} {text : Text} {found : List Token}
    (divides : Divides position text found) {minus token : Token} (isMinus : minus.Is .operator "-")
    (inFound : minus ∈ found) (member : token ∈ found)
    (follows : token.span.start.offset = minus.span.stop.offset) :
    ¬ (token.kind = .operator ∨ token.kind = .dot) := by
  induction divides with
  | done =>
    obtain rfl := List.mem_singleton.mp inFound
    cases isMinus.1
  | blank _ _ ih => exact ih inFound member
  | @token position u tail rest kind tokens _ read further ih =>
    have next := position.offset_advance (u :: tail)
    rw [List.length_cons] at next
    cases inFound with
    | tail _ inRest =>
      have behind := further.ordered.start_le minus inRest
      have wide := minus.span.start.offset_advance minus.lexeme
      rw [← further.stop_eq minus inRest] at wide
      cases member with
      | tail _ inTokens => exact ih inRest inTokens
      | head =>
        have here : position.offset = minus.span.stop.offset := follows
        omega
    | head =>
      intro isSymbol
      have lexeme : u :: tail = [.ofChar '-'] := isMinus.2
      obtain ⟨rfl, rfl⟩ := List.cons.inj lexeme
      obtain rfl : kind = .operator := isMinus.1
      have here : token.span.start.offset = (position.advance [.ofChar '-']).offset := follows
      cases member with
      | head =>
        have same : position.offset = (position.advance [.ofChar '-']).offset := here
        omega
      | tail _ inTokens =>
        have solid : token.kind ≠ .eof := by
          rcases isSymbol with isKind | isKind <;> simp [isKind]
        obtain ⟨v, inside, after, rfl, -, readNext⟩ := further.front_of_start inTokens solid here
        have isOperator := isOperator_of_front_symbol readNext isSymbol
        rw [front_minus read] at isOperator
        cases isOperator

end Scan

/-- At the place an operator or a dot begins. -/
def SymbolAt (tokens : List Token) (place : Position) : Prop :=
  ∃ token, solidFrom tokens place = some token ∧ token.span.start = place ∧
    (token.kind = .operator ∨ token.kind = .dot)

/-- At the place a minus sign begins. -/
def MinusAt (tokens : List Token) (place : Position) : Prop :=
  ∃ token, solidFrom tokens place = some token ∧ token.span.start = place ∧ token.Is .operator "-"

/-- Where a minus sign stops no symbol begins. -/
theorem Input.Scanned.no_symbolAt (scanned : input.Scanned) {minus : Token}
    (isMinus : minus.Is .operator "-") (member : minus ∈ input.tokens.toList) :
    ¬ SymbolAt input.tokens.toList minus.span.stop := by
  rintro ⟨token, found, starts, isSymbol⟩
  refine Scan.Divides.behind_minus scanned isMinus member
    (List.mem_of_find?_eq_some found) ?_ isSymbol
  rw [starts]

/-! ## Names and operators -/

section Words

variable (scanned : input.Scanned)

include scanned

/-- A lower-case name is a token. -/
theorem lowerName_ensures : Ensures input levels least (least + 1) start lowerName fun name stop =>
    ∃ token : Token, token.Is .lowerIdentifier name ∧ solidFrom input.tokens.toList start.position =
        some token ∧ token.span.start = start.position ∧ stop.position = token.span.stop := by
  refine .map ((token_ensures scanned (by decide) _).imp fun token stop facts => ?_)
  exact ⟨token, ⟨facts.1, rfl⟩, facts.2⟩

/-- An upper-case name is a token. -/
theorem upperName_ensures : Ensures input levels least (least + 1) start upperName fun name stop =>
    ∃ token : Token, token.Is .upperIdentifier name ∧ solidFrom input.tokens.toList start.position =
        some token ∧ token.span.start = start.position ∧ stop.position = token.span.stop := by
  refine .map ((token_ensures scanned (by decide) _).imp fun token stop facts => ?_)
  exact ⟨token, ⟨facts.1, rfl⟩, facts.2⟩

/-- A lower-case name stands in the source. -/
theorem lowerName_verbatim : Ensures input levels least (least + 1) start lowerName fun name stop =>
    input.Verbatim start.position stop.position name := by
  refine (lowerName_ensures scanned).imp ?_
  rintro name stop ⟨token, isName, found, starts, stops⟩
  rw [← starts, stops]
  exact scanned.verbatim_of_name (List.mem_of_find?_eq_some found) (.inl isName)

/-- An upper-case name stands in the source. -/
theorem upperName_verbatim : Ensures input levels least (least + 1) start upperName fun name stop =>
    input.Verbatim start.position stop.position name := by
  refine (upperName_ensures scanned).imp ?_
  rintro name stop ⟨token, isName, found, starts, stops⟩
  rw [← starts, stops]
  exact scanned.verbatim_of_name (List.mem_of_find?_eq_some found) (.inr isName)

/-- Punctuation with one spelling stands in the source. -/
theorem mark_verbatim {kind : TokenKind} {word : String} (isMark : kind.mark? = some word)
    (label : String) : Ensures input levels least (least + 1) start (token kind label) fun _ stop =>
      input.Verbatim start.position stop.position word := by
  have notEnd : kind ≠ .eof := by
    rintro rfl
    cases isMark
  refine (token_ensures scanned notEnd label).imp ?_
  rintro token stop ⟨isKind, found, starts, stops⟩
  rw [← starts, stops]
  exact scanned.verbatim_of_mark (List.mem_of_find?_eq_some found) (isKind ▸ isMark)

/-- Upper-case names after dots go on what stands directly before them. -/
theorem dottedUpperNames_ensures :
    Ensures input levels least least start dottedUpperNames fun names stop => ∀ origin text,
      input.Verbatim origin start.position text →
        input.Verbatim origin stop.position (text ++ names.flatMap (Text.ofString "." ++ ·)) := by
  have one : ∀ start, Ensures input levels least least start (attempt (dot >>= fun _ => upperName))
      fun name stop => input.Verbatim start.position stop.position ("." ++ name) := by
    intro start
    refine .attempt (.bind (mark_verbatim scanned rfl _).stay fun _ _ before => ?_)
    exact (upperName_verbatim scanned).stay.imp fun _ _ behind => before.append behind
  refine .manyChain one (motive := fun start names stop => ∀ origin text,
    input.Verbatim origin start.position text →
      input.Verbatim origin stop.position (text ++ names.flatMap (Text.ofString "." ++ ·))) ?_ ?_
  · intro cursor origin text before
    rw [List.flatMap_nil, List.append_nil]
    exact before
  · intro start name between names stop here further origin text before
    have goesOn := further origin _ (before.append here)
    rwa [List.append_assoc, ← List.flatMap_cons] at goesOn

/-- A lower-case name after a dot stands in the source. -/
theorem dottedLowerName_ensures :
    Ensures input levels least (least + 1) start dottedLowerName fun name stop =>
    input.Verbatim start.position stop.position ("." ++ name) := by
  refine .attempt (.bind (mark_verbatim scanned rfl _) fun _ _ before => ?_)
  exact (lowerName_verbatim scanned).stay.imp fun _ _ behind => before.append behind

/-- A qualified name keeps the references of indentation. -/
theorem qualifiedUpperName_ensures :
    Ensures input levels least (least + 1) start qualifiedUpperName fun _ _ => True := by
  refine .bind (upperName_ensures scanned) fun first _ _ => ?_
  exact .map ((dottedUpperNames_ensures scanned).imp fun _ _ _ => trivial)

/-- A name stands in the source. It is no operator, and where it is a constructor no field is read
behind it. -/
theorem nameReference_ensures :
    Ensures input levels least (least + 1) start nameReference fun found stop =>
    input.Verbatim start.position stop.position found.spelling ∧
      ((∃ name, found = .value name) ∨ (∃ name, found = .tag name) ∧
        ∀ field after, dottedLowerName input stop ≠ .done field after) := by
  refine .ifPeek ?_ (.ifPeek ?_ (.fail _))
  · refine .map ((lowerName_verbatim scanned).imp fun name _ stands => ⟨?_, .inl ⟨_, rfl⟩⟩)
    rw [Reference.spelling, QualifiedName.parts, List.nil_append, List.intercalate_singleton]
    exact stands
  · refine .bind (upperName_verbatim scanned) fun first _ stands => ?_
    refine .bind (dottedUpperNames_ensures scanned) fun rest between goesOn => ?_
    have names := goesOn _ _ stands
    intro level found stop run
    obtain ⟨field, after, runOptional, made⟩ := bind_done.mp run
    obtain ⟨level', facts⟩ :=
      (dottedLowerName_ensures scanned).optional (Nat.le_succ _) level field after runOptional
    rcases facts with ⟨name, rfl, behind⟩ | ⟨rfl, rfl⟩
    · obtain ⟨rfl, rfl⟩ := Outcome.done.inj made
      refine ⟨level', ?_, .inl ⟨_, rfl⟩⟩
      rw [Reference.spelling, QualifiedName.parts, List.cons_append, Text.intercalate_cons,
        List.flatMap_append, ← List.append_assoc, List.flatMap_singleton]
      exact names.append behind
    · obtain ⟨rfl, rfl⟩ := Outcome.done.inj made
      refine ⟨level', ?_, .inr ⟨⟨_, rfl⟩, optional_none runOptional⟩⟩
      rw [Reference.spelling, QualifiedName.parts_ofParts, Text.intercalate_cons]
      exact names

/-- A literal that is no number stands in the source. -/
theorem literal_ensures : Ensures input levels least (least + 1) start literal fun found stop =>
    found.tokenKind ≠ .number →
      input.source.over ⟨start.position, stop.position⟩ = found.spelling := by
  have token : Ensures input levels least (least + 1) start literal fun _ _ => True := by
    refine .bind (satisfy_ensures scanned ?_ _) fun token _ facts => ?_
    · intro token holds isEnd
      simp [isEnd] at holds
    · split
      · exact .pure trivial
      · exact .pure trivial
      · split
        · exact .pure trivial
        · intro _ _ _ run
          cases run
  refine (token.also fun _ found stop run notNumber => ?_).imp fun _ _ facts => facts.2
  obtain ⟨token, next, adjacent, stands, rfl⟩ := literal_done run
  obtain ⟨sameKind, spells⟩ := Token.spells_of_literal? (scanned.shape next) stands
  rw [spells (sameKind ▸ notNumber), ← scanned.over_token (Input.Scanned.mem_of_tokenAt? next),
    Text.over, Text.over, adjacent]
  rfl

/-- A symbol stands in the source. It is made of operator characters and is no punctuation. -/
theorem operatorSymbol_ensures :
    Ensures input levels least (least + 1) start operatorSymbol fun symbol stop =>
    IsSymbol symbol ∧ input.Verbatim start.position stop.position symbol := by
  refine .map ((token_ensures scanned (by decide) _).imp fun token stop facts => ?_)
  obtain ⟨isOperator, found, starts, stops⟩ := facts
  have member := List.mem_of_find?_eq_some found
  obtain ⟨other, fronts⟩ := Scan.Divides.fronts scanned token member (by simp [isOperator])
  rw [isOperator] at fronts
  obtain ⟨u, tail, same, -, read⟩ :=
    fronts.before_blank (by decide) (show ∀ u ∈ ([] : Text).head?, _ by simp)
  rw [List.append_nil] at read
  have first := Scan.isOperator_of_front read
  obtain ⟨-, kind, reaches, -⟩ := Scan.operator_of_front first read (by decide)
  have isLexeme : IsLexeme .operator (u :: tail) :=
    ⟨input.source, input.tokens.toList, (Scan.scan_eq_ok_iff _ _).mpr scanned, token, member,
      isOperator, same⟩
  have units : ∀ v ∈ u :: tail, v.isOperator = true :=
    List.forall_mem_cons.mpr ⟨first, Scan.isOperator_of_operatorRun reaches⟩
  have stands := scanned.verbatim member (by rw [Token.isComment, isOperator]; rfl)
    (same ▸ fun u inside => Scan.notBlank_of CodeUnit.isOperator (by decide) (units u inside))
  rw [starts, ← stops] at stands
  rw [same] at stands ⊢
  refine ⟨⟨isLexeme, List.cons_ne_nil _ _, units, ?_⟩, stands⟩
  have punctuation : ∀ entry ∈ reservedOperators,
        TokenKind.ofOperator (Text.ofString entry.1) ≠ .operator := by decide
  intro entry member isEntry
  rw [isEntry] at kind
  exact punctuation entry member kind.symm

/-- An operator in parentheses stands in the source. -/
theorem parenthesizedOperator_ensures :
    Ensures input levels least (least + 1) start parenthesizedOperator fun symbol stop =>
      input.Verbatim start.position stop.position ("(" ++ symbol ++ ")") := by
  refine .bind (mark_verbatim scanned rfl _) fun _ _ opens => ?_
  refine .bind (operatorSymbol_ensures scanned).stay fun symbol _ facts => ?_
  exact .bind (mark_verbatim scanned rfl _).stay fun _ _ closes =>
    .pure ((opens.append facts.2).append closes)

/-! ## Arguments -/

variable {item : Parser α} {told : Cursor → α → Cursor → Prop} {late : Nat}

/-- An item after blanks stands past the reference. -/
theorem spacedItem_ensures
    (items : ∀ start, Ensures input levels least late start item (told start)) :
    Ensures input levels least late start (spacedItem item) fun found stop => ∃ first,
      solidFrom input.tokens.toList first.position = solidFrom input.tokens.toList start.position ∧
      levels.headD 1 < first.position.column ∧ told first found.value stop := by
  refine .attempt (.bind (whitespace_ensures scanned) fun comments first leads => ?_)
  refine .bind .indented fun _ here past => ?_
  obtain ⟨rfl, past⟩ := past
  exact .map ((items here).imp fun value stop holds => ⟨here, leads.1, past, holds⟩)

/-- A minus sign at the place of the cursor is seen. -/
theorem peekMinus_ensures :
    Ensures input levels least least start (Parser.peekThat isMinus) fun seen stop =>
    stop = start ∧ (MinusAt input.tokens.toList start.position → seen = true) := by
  intro level seen stop run
  obtain ⟨rfl, next, found, told⟩ := peekThat_done run
  obtain ⟨_, token, _, stands⟩ := level.place
  obtain rfl : token = next := Option.some.inj (stands.tokenAt?.symm.trans found)
  refine ⟨level, rfl, ?_⟩
  rintro ⟨minus, ahead, starts, isOperator, lexeme⟩
  obtain rfl := stands.eq_of_solidFrom scanned ahead (congrArg Position.offset starts)
  have startsAt : StartsAt token stop := congrArg Position.offset starts
  rw [told, decide_eq_true startsAt, isMinus, isOperator, lexeme]
  rfl

/-- An argument stands past the reference, and it does not begin with a minus sign directly behind
what is before it. -/
theorem spacedArgument_ensures
    (items : ∀ start, Ensures input levels least late start item (told start)) :
    Ensures input levels least late start (spacedArgument item) fun found stop => ∃ first,
      levels.headD 1 < first.position.column ∧ (first.position.offset = start.position.offset →
      ¬ MinusAt input.tokens.toList first.position) ∧ told first found.value stop := by
  rw [spacedArgument_eq]
  refine .attempt (.position (.bind (whitespace_ensures scanned) fun comments first _ =>
      .position ?_))
  refine .bind (peekMinus_ensures scanned) fun minus here facts => ?_
  obtain ⟨rfl, seen⟩ := facts
  split
  · exact .fail _
  · rename_i allowed
    refine .bind .indented fun _ here past => ?_
    obtain ⟨rfl, past⟩ := past
    refine .map ((items here).imp fun value stop holds =>
        ⟨here, past, fun same isMinus => allowed ?_, holds⟩)
    rw [same, seen isMinus, beq_self_eq_true]
    rfl

/-! ## Operands -/

omit scanned in
/-- The operands of a chain are the first one and those of its links. -/
theorem operands_forall {told : α → Prop} (before : Comments) {current : α} (links : List (Link α))
    (first : told current) (rest : ∀ link ∈ links, told link.operand) :
    ∀ operand ∈ (Link.operands before current links).1 :: (Link.operands before current links).2,
      told operand.value := by
  induction links generalizing before current with
  | nil => exact List.forall_mem_singleton.mpr first
  | cons link links ih =>
    obtain ⟨here, others⟩ := List.forall_mem_cons.mp rest
    rw [Link.operands]
    exact List.forall_mem_cons.mpr ⟨first, ih link.after here others⟩

/-- Joined operands ensure of each operand what one run does; there are none behind the first one
only if that is all that was read. -/
theorem joined_ensures {connective : Parser Token} {operand : Parser α}
    {told : Cursor → α → Cursor → Prop} {each : α → Prop} (connects : ∀ start, Ensures input levels
      (least + 1) (least + 1) start connective fun _ _ => True) (operands : ∀ count start,
      least ≤ count → Ensures input levels count (count + 1) start operand (told start))
    (tells : ∀ start value stop, told start value stop → each value) :
    Ensures input levels least (least + 1) start (joined connective operand) fun found stop =>
      (∀ one ∈ found.1 :: found.2, each one.value) ∧
        (found.2 = [] → told start found.1.value stop) := by
  refine .bind (operands least start (Nat.le_refl _)) fun first between holds => ?_
  have link : ∀ start, Ensures input levels (least + 1) (least + 1) start (link connective operand)
      fun found _ => each found.operand := by
    intro start
    refine .attempt (.bind (whitespace_ensures scanned) fun before _ _ => ?_)
    refine .bind (connects _) fun _ _ _ => ?_
    refine .bind (whitespace_ensures scanned) fun after _ _ => ?_
    refine .map ((operands (least + 1) _ (Nat.le_succ _)).stay.imp fun value stop holds => ?_)
    exact tells _ value stop holds
  have chain :
      Ensures input levels (least + 1) (least + 1) between (many (Grammar.link connective operand))
        fun links stop => (∀ link ∈ links, each link.operand) ∧ (links = [] → stop = between) := by
    refine .manyChain (motive := fun start links stop =>
      (∀ link ∈ links, each link.operand) ∧ (links = [] → stop = start)) link ?_ ?_
    · exact fun cursor => ⟨List.forall_mem_nil _, fun _ => rfl⟩
    · intro start link between rest stop here others
      exact ⟨List.forall_mem_cons.mpr ⟨here, others.1⟩,
        fun none => absurd none (List.cons_ne_nil _ _)⟩
  refine .map (chain.imp fun links stop facts => ⟨?_, fun none => ?_⟩)
  · exact operands_forall [] links (tells start first between holds) facts.1
  · cases links with
    | nil =>
      rw [facts.2 rfl]
      exact holds
    | cons link links => cases none

end Words

end Marginalia
