import Marginalia.Proofs.Cursor.Grammar
import Marginalia.Proofs.Indentation.Grammar
import Marginalia.Proofs.Spelling.Source

/-!
# Where a declaration returns to the first column

The first token of a declaration stands in the first column. Main statement: the first of its
further tokens that stands there, if there is one, is tied to what stands before it. Nothing checks
the column of such a token, so a declaration may go on in the first column. Up to it all further
tokens are indented; nothing is said of the tokens behind it.
-/

namespace Marginalia

open Marginalia.Parser

variable {α : Type} {before after : Bool}

/-! ## What was read last -/

namespace Stretch

variable {s : Stretch} {start stop : Cursor}

/-- Blanks and comments are not read. -/
theorem readBefore_whitespace {comments : Comments}
    (run : whitespace s.input start = .done comments stop) :
    s.input.readBefore stop.index = s.input.readBefore start.index := by
  obtain ⟨_, _, -, rfl⟩ := whitespace_done run
  exact Input.readBefore_of_comments (Nat.le_add_right _ _) fun index lower upper =>
    isComment_of_lt lower upper

/-- A token that is read is the last one that was read. -/
theorem readBefore_satisfy {property : Token → Bool} {label : String} {token : Token}
    (run : satisfy property label s.input start = .done token stop) (notEnd : token.kind ≠ .eof) :
    s.input.readBefore stop.index = token :: s.input.readBefore start.index := by
  obtain ⟨found, ⟨-, solid, -⟩, rfl⟩ := satisfy_done run
  have inside : start.index < s.input.tokens.size := by
    by_contra outside
    exact notEnd (s.scanned.eof_of_size_le found (by omega))
  refine Input.readBefore_succ ?_ solid
  rw [Input.tokenAt?, Array.getElem?_eq_getElem inside] at found
  rw [Array.getElem?_eq_getElem inside]
  exact found

end Stretch

namespace Grammar

/-! ## Declarations -/

/-- A fixity's word and precedence: behind them its operator is waited for. -/
theorem precedence_leads {s : Stretch} {start first second stop : Cursor} {word number : Token}
    {comments : Comments} (fits : s.Fits start) (clear : s.Clear start)
    (ranWord : satisfy (fun token => token.kind == .keyword && (fixityKeyword? token.lexeme).isSome)
      "an infix declaration" s.input start = .done word first)
    (blanks : whitespace s.input first = .done comments second)
    (ranNumber : token .number ParseError.precedenceLabel s.input second = .done number stop) :
    s.Leads true start stop := by
  have isWord := Bool.and_eq_true_iff.mp (satisfy_done ranWord).2.1.2.2
  have wordKind : word.kind = .keyword := beq_iff_eq.mp isWord.1
  have numberKind : number.kind = .number := beq_iff_eq.mp (satisfy_done ranNumber).2.1.2.2
  have waits : Indents true true (satisfy (fun token => token.kind == .keyword &&
        (fixityKeyword? token.lexeme).isSome) "an infix declaration") := by
    refine .satisfy _ nofun fun _ token read holds => .inl ?_
    rw [beq_iff_eq.mp (Bool.and_eq_true_iff.mp holds).1]
    rfl
  have one := waits.leads s fits (fun _ => clear) ranWord
  have two := whitespace_indents.leads s (one.fits fits) one.clear blanks
  have three := (numberToken_indents _).leads s (two.fits (one.fits fits)) two.clear ranNumber
  have leads := one.trans (two.trans three)
  have read : s.input.readBefore stop.index = number :: word :: s.input.readBefore start.index := by
    rw [Stretch.readBefore_satisfy ranNumber (by simp [numberKind]),
      Stretch.readBefore_whitespace blanks, Stretch.readBefore_satisfy ranWord (by simp [wordKind])]
  refine ⟨leads.follows, leads.column, leads.past, fun _ => Stretch.clear_of_waits ?_⟩
  rw [read]
  exact .inr (.inr ⟨word, rfl, isWord.2, numberKind⟩)

instance fixityDeclaration_indents : Indents true false fixityDeclaration where
  leads s start stop value fits clear run := by
    obtain ⟨word, first, ranWord, ranRest⟩ := bind_done.mp run
    obtain ⟨comments, second, blanks, ranRest⟩ := bind_done.mp ranRest
    obtain ⟨number, third, ranNumber, ranRest⟩ := bind_done.mp ranRest
    have leads := precedence_leads fits (clear rfl) ranWord blanks ranNumber
    have symbol : Indents true false (choice [parenthesizedOperator, operatorSymbol]) := by
      refine choiceAfter_indents _ _
        (List.forall_mem_cons.mpr ⟨inferInstance, List.forall_mem_singleton.mpr ?_⟩)
      exact operatorSymbol_indents.forget
    have rest : Indents true false (match precedenceOf? number.lexeme with
        | none => reject (.invalidPrecedence number)
        | some precedence => do
          let preOperator ← whitespace
          let symbol ← choice [parenthesizedOperator, operatorSymbol]
          return (⟨(fixityKeyword? word.lexeme).getD .none, .pre comments precedence,
            .pre preOperator symbol⟩ : FixityDeclaration)) := by
      split <;> infer_instance
    exact leads.trans (rest.leads s (leads.fits fits) leads.clear ranRest)

/-- The word `type`, and the word `alias` if it follows: behind them a name is waited for. -/
theorem typeWord_leads {s : Stretch} {start first stop : Cursor} {word : Token}
    {comments : Option Comments} (fits : s.Fits start) (clear : s.Clear start)
    (ranWord : keyword "type" s.input start = .done word first)
    (ranAlias : optional aliasWord s.input first = .done comments stop) :
    s.Leads true start stop := by
  have isWord := Bool.and_eq_true_iff.mp (satisfy_done ranWord).2.1.2.2
  have wordKind : word.kind = .keyword := beq_iff_eq.mp isWord.1
  have one := (keyword_indents "type").leads s fits (fun _ => clear) ranWord
  rcases optional_done ranAlias with ⟨found, -, ranFound⟩ | ⟨-, rfl⟩
  · obtain ⟨leading, second, blanks, ranRest⟩ := bind_done.mp (attempt_done.mp ranFound)
    obtain ⟨second', third, ranSecond, made⟩ := bind_done.mp ranRest
    obtain ⟨-, rfl⟩ := Outcome.done.inj made
    have isAlias := Bool.and_eq_true_iff.mp (satisfy_done ranSecond).2.1.2.2
    have aliasKind : second'.kind = .lowerIdentifier := beq_iff_eq.mp isAlias.1
    have two := whitespace_indents.leads s (one.fits fits) one.clear blanks
    have plain : Indents true false (spelled .lowerIdentifier "alias") := .satisfy _ nofun nofun
    have three := plain.leads s (two.fits (one.fits fits)) two.clear ranSecond
    have leads := one.trans (two.trans three)
    have read :
        s.input.readBefore third.index = second' :: word :: s.input.readBefore start.index := by
      rw [Stretch.readBefore_satisfy ranSecond (by simp [aliasKind]), Stretch.readBefore_whitespace
          blanks, Stretch.readBefore_satisfy ranWord (by simp [wordKind])]
    refine ⟨leads.follows, leads.column, leads.past, fun _ => Stretch.clear_of_waits ?_⟩
    rw [read]
    exact .inr (.inl ⟨word, rfl, wordKind, beq_iff_eq.mp isWord.2, beq_iff_eq.mp isAlias.2⟩)
  · exact one

instance variant_indents : Indents true false variant := by unfold variant; infer_instance

instance variantBar_indents : Indents before true variantBar := by unfold variantBar; infer_instance

instance variantsUpTo_indents (bound : Nat) (comments : Comments) :
    Indents true false (variantsUpTo bound comments) := by
  induction bound generalizing comments with
  | zero => unfold variantsUpTo; infer_instance
  | succ bound ih =>
    unfold variantsUpTo
    exact .bind inferInstance fun first =>
      .bindOptional variantBar_indents (fun _ => inferInstance) inferInstance

instance variants_indents (comments : Comments) : Indents true false (variants comments) :=
  .bounded (fun bound => variantsUpTo_indents bound comments) Input.repetitionLimit

instance typeDeclaration_indents : Indents true false typeDeclaration where
  leads s start stop value fits clear run := by
    obtain ⟨word, first, ranWord, ranRest⟩ := bind_done.mp run
    obtain ⟨aliasComments, second, ranAlias, ranRest⟩ := bind_done.mp ranRest
    have leads := typeWord_leads fits (clear rfl) ranWord ranAlias
    have declared (preName : Comments) (name : Text) (parameters : List (Commented Text))
      (comments : Comments) : Indents true false (match aliasComments with
          | some preAlias => do
            let type ← typeExpression
            return TopLevel.typeAlias ⟨.pre (preAlias ++ preName) name, parameters,
              .pre comments type⟩
          | none => do
            return .datatype ⟨.pre preName name, parameters, ← variants comments⟩) := by
      split <;> infer_instance
    have rest : Indents true false (do
        let preName ← whitespace
        let name ← upperName
        let parameters ← spaced lowerName
        let preEquals ← whitespace
        let _ ← token .equals "'='"
        let postEquals ← whitespace
        let comments := preEquals ++ postEquals
        match aliasComments with
        | some preAlias =>
          let type ← typeExpression
          return TopLevel.typeAlias ⟨.pre (preAlias ++ preName) name, parameters,
            .pre comments type⟩
        | none =>
          return .datatype ⟨.pre preName name, parameters, ← variants comments⟩) := inferInstance
    exact leads.trans (rest.leads s (leads.fits fits) leads.clear ranRest)

instance topLevel_indents : Indents true false topLevel := by unfold topLevel; infer_instance

/-! ## Entries of a module -/

/-- A declaration is read from a cursor at the start of a token, outside of any block. -/
structure ReadFrom (input : Input) (entry : Located TopLevel) (start stop : Cursor) : Prop where
  /-- The cursor is coherent. -/
  coherent : input.Coherent start
  /-- There is no block around it. -/
  indentation : start.indentation = []
  /-- The cursor is at the start of the next token. -/
  poised : input.Poised start
  /-- A token is left to be read. -/
  inside : start.index < input.tokens.size
  /-- The declaration is read. -/
  run : topLevel input start = .done entry stop

/-- Every entry that is no comment is read as a declaration. -/
theorem declarationsUpTo_readFrom {input : Input} (scanned : input.Scanned) {bound : Nat}
    {start stop : Cursor} {entries : List (Located TopLevel)} (coherent : input.Coherent start)
    (indentation : start.indentation = []) (poised : input.Poised start)
    (run : declarationsUpTo bound input start = .done entries stop) :
    ∀ entry ∈ entries, (∃ comment, entry.value = .comment comment) ∨
      ∃ start stop, ReadFrom input entry start stop := by
  induction bound generalizing start entries with
  | zero => cases run
  | succ bound ih =>
    obtain ⟨next, here, looked, ranRest⟩ := bind_done.mp run
    obtain ⟨found, rfl⟩ := peek_done looked
    split at ranRest
    · obtain ⟨rfl, -⟩ := Outcome.done.inj ranRest
      exact List.forall_mem_nil _
    · rename_i notEnd
      have inside : here.index < input.tokens.size := by
        by_contra outside
        exact notEnd (scanned.eof_of_size_le found (by omega))
      obtain ⟨entry, behind, ranEntry, ranRest⟩ := bind_done.mp ranRest
      obtain ⟨comments, after, ranComments, ranRest⟩ := bind_done.mp ranRest
      obtain ⟨rest, _, ranDeclarations, made⟩ := bind_done.mp ranRest
      obtain ⟨rfl, rfl⟩ := Outcome.done.inj made
      have blanks := (located_done ranComments).2
      have first := Steady.follows_done scanned coherent ranEntry
      have second := Steady.follows_done scanned first.coherent blanks
      have later := ih second.coherent ((second.indentation.trans first.indentation).trans
          indentation) (scanned.poised first.coherent blanks) ranDeclarations
      refine List.forall_mem_cons.mpr
        ⟨.inr ⟨here, behind, coherent, indentation, poised, inside, ranEntry⟩, ?_⟩
      refine List.forall_mem_append.mpr ⟨fun entry member => ?_, later⟩
      obtain ⟨comment, -, rfl⟩ := List.mem_map.mp member
      exact .inl ⟨comment, rfl⟩

/-- Imports, with the blanks and comments behind each, lead to the start of a token. -/
theorem importsUpTo_poised {input : Input} (scanned : input.Scanned) {bound : Nat}
    {start stop : Cursor} {pending : Located Comments}
    {found : List (Commented (Located Import)) × Located Comments} (coherent : input.Coherent start)
    (poised : input.Poised start) (run : importsUpTo bound pending input start = .done found stop) :
    input.Follows start stop ∧ input.Poised stop := by
  refine ⟨Steady.follows_done scanned coherent run, ?_⟩
  induction bound generalizing start pending found with
  | zero => cases run
  | succ bound ih =>
    obtain ⟨another, here, looked, ranRest⟩ := bind_done.mp run
    obtain ⟨rfl, -⟩ := peekThat_done looked
    cases another with
    | false =>
      obtain ⟨-, rfl⟩ := Outcome.done.inj ranRest
      exact poised
    | true =>
      obtain ⟨declaration, behind, ranImport, ranRest⟩ := bind_done.mp ranRest
      obtain ⟨comments, after, ranComments, ranRest⟩ := bind_done.mp ranRest
      obtain ⟨⟨rest, last⟩, _, ranImports, made⟩ := bind_done.mp ranRest
      obtain ⟨-, rfl⟩ := Outcome.done.inj made
      have blanks := (located_done ranComments).2
      have first := Steady.follows_done scanned coherent ranImport
      have second := Steady.follows_done scanned first.coherent blanks
      exact ih second.coherent (scanned.poised first.coherent blanks) ranImports

/-- Every entry of a module that is no comment is read as a declaration. -/
theorem module_readFrom {input : Input} (scanned : input.Scanned) {stop : Cursor} {found : Module}
    (run : module input .start = .done found stop) :
    ∀ entry ∈ found.body, (∃ comment, entry.value = .comment comment) ∨
      ∃ start stop, ReadFrom input entry start stop := by
  obtain ⟨initial, first, ranInitial, ranRest⟩ := bind_done.mp run
  obtain ⟨header, second, ranHeader, ranRest⟩ := bind_done.mp ranRest
  obtain ⟨pending, third, ranPending, ranRest⟩ := bind_done.mp ranRest
  obtain ⟨⟨imports, last⟩, fourth, ranImports, ranRest⟩ := bind_done.mp ranRest
  obtain ⟨declarations, fifth, ranDeclarations, ranRest⟩ := bind_done.mp ranRest
  obtain ⟨_, _, _, made⟩ := bind_done.mp ranRest
  obtain ⟨rfl, -⟩ := Outcome.done.inj made
  have toFirst := Steady.follows_done scanned scanned.coherent_start ranInitial
  have toSecond := toFirst.trans (Steady.follows_done scanned toFirst.coherent ranHeader)
  have blanks := (located_done ranPending).2
  have toThird := toSecond.trans (Steady.follows_done scanned toSecond.coherent blanks)
  have poised := scanned.poised toSecond.coherent blanks
  obtain ⟨toFourth, poisedFourth⟩ := importsUpTo_poised scanned toThird.coherent poised ranImports
  have later := declarationsUpTo_readFrom scanned toFourth.coherent
    (toThird.trans toFourth).indentation poisedFourth ranDeclarations
  refine List.forall_mem_append.mpr ⟨fun entry member => ?_, later⟩
  obtain ⟨comment, -, rfl⟩ := List.mem_map.mp member
  exact .inl ⟨comment, rfl⟩

end Grammar

/-! ## Tokens of a declaration -/

/-- The entry is a comment. -/
def TopLevel.isComment : TopLevel → Bool
  | comment _ => true
  | _ => false

/-- The token starts within the span and behind its start. -/
def Span.Continues (span : Span) (token : Token) : Prop :=
  span.start.offset < token.span.start.offset ∧ token.span.start.offset < span.stop.offset

/-- A solid token stands at an index with the other solid tokens before it. -/
theorem Input.readBefore_of_filter {input : Input} {before after : List Token} {token : Token}
    (split : (input.tokens.toList.filter fun token => !token.isComment) =
      before ++ token :: after) :
    ∃ index, input.tokens[index]? = some token ∧ token.isComment = false ∧
      input.readBefore index = before.reverse := by
  obtain ⟨front, rest, whole, rfl, behind⟩ := List.filter_eq_append_iff.mp split
  obtain ⟨comments, others, rfl, areComments, solid, rfl⟩ := List.filter_eq_cons_iff.mp behind
  have tokens : input.tokens.toList = (front ++ comments) ++ token :: others := by
    rw [whole, List.append_assoc]
  refine ⟨(front ++ comments).length, ?_, by simpa using solid, ?_⟩
  · rw [← Array.getElem?_toList, tokens, List.getElem?_append_right (Nat.le_refl _), Nat.sub_self]
    rfl
  · rw [readBefore, tokens, List.take_left, List.filter_append,
      List.filter_eq_nil_iff.mpr areComments, List.append_nil]

/-- A token before another one starts earlier. -/
theorem Input.Scanned.start_lt {input : Input} (scanned : input.Scanned) {first second : Nat}
    (lt : first < second) {token later : Token} (found : input.tokens[first]? = some token)
    (foundLater : input.tokens[second]? = some later) :
    token.span.start.offset < later.span.start.offset := by
  obtain ⟨inner, closed, wide⟩ := Scan.Divides.closes scanned
  have inside : second < input.tokens.size := (Array.getElem?_eq_some_iff.mp foundLater).1
  have size : input.tokens.size = inner.length + 1 := by
    rw [← Array.length_toList, closed, List.length_append]
    rfl
  have member : token ∈ inner := by
    rw [← Array.getElem?_toList, closed, List.getElem?_append_left (by omega)] at found
    exact List.mem_of_getElem? found
  have here : input.tokenAt? first = some token := by
    rw [tokenAt?, found]
    rfl
  obtain ⟨next, foundNext, gap, -⟩ := scanned.tokenAt?_succ here
  obtain ⟨other, foundOther, le⟩ := scanned.tokenAt?_of_le lt foundNext
  obtain rfl : later = other := by
    rw [tokenAt?, foundLater] at foundOther
    exact Option.some.inj foundOther
  have width := (wide token member).2
  omega

namespace Grammar.ReadFrom

variable {input : Input} {entry : Located TopLevel} {start stop : Cursor}

/-- The declaration has the span between the cursors, and it starts in the first column. -/
theorem span (read : ReadFrom input entry start stop) :
    entry.span = ⟨start.position, stop.position⟩ ∧ start.position.column = 1 := by
  have run := read.run
  unfold topLevel at run
  obtain ⟨place, here, told, ranRest⟩ := bind_done.mp run
  obtain ⟨rfl, rfl⟩ := Outcome.done.inj told
  split at ranRest
  · exact absurd ranRest (fail_ne_done _ _ _ _ _)
  · rename_i column
    obtain ⟨inner, ran, rfl⟩ := withReference_done ranRest
    exact ⟨(located_done ran).1, by omega⟩

/-- The cursor is at the start of the first token of the declaration. -/
theorem first_token (read : ReadFrom input entry start stop) :
    ∃ token, input.tokens[start.index]? = some token ∧ token.isComment = false ∧
      token.span.start = start.position := by
  have found := Array.getElem?_eq_getElem read.inside
  exact ⟨_, found, read.poised _ found⟩

/-- A token that continues the declaration is read behind its first one. -/
theorem index_of_continues (read : ReadFrom input entry start stop) (scanned : input.Scanned)
    {index : Nat} {token : Token} (found : input.tokens[index]? = some token)
    (continues : entry.span.Continues token) : start.index < index ∧ index < stop.index := by
  obtain ⟨span, -⟩ := read.span
  rw [span] at continues
  obtain ⟨later, earlier⟩ := continues
  have here : input.tokenAt? index = some token := by
    rw [Input.tokenAt?, found]
    rfl
  constructor
  · by_contra notLater
    obtain ⟨first, foundFirst, -, starts⟩ := read.first_token
    obtain ⟨other, foundOther, le⟩ :=
      scanned.tokenAt?_of_le (show index ≤ start.index by omega) here
    rw [Input.tokenAt?, foundFirst] at foundOther
    obtain rfl : first = other := Option.some.inj foundOther
    rw [starts] at le
    exact absurd later (Nat.not_lt.mpr le)
  · by_contra notEarlier
    obtain ⟨next, foundNext, le, -⟩ := (Steady.follows_done scanned read.coherent read.run).coherent
    obtain ⟨other, foundOther, further⟩ :=
      scanned.tokenAt?_of_le (show stop.index ≤ index by omega) foundNext
    obtain rfl : token = other := Option.some.inj (here.symm.trans foundOther)
    exact absurd earlier (Nat.not_lt.mpr (Nat.le_trans le further))

/-- Tokens between the first one of the declaration and one that continues it continue it as
well. -/
theorem continues_of_index (read : ReadFrom input entry start stop) (scanned : input.Scanned)
    {index middle : Nat} {token earlier : Token} (found : input.tokens[index]? = some token)
    (continues : entry.span.Continues token) (foundEarlier : input.tokens[middle]? = some earlier)
    (lower : start.index < middle) (upper : middle < index) : entry.span.Continues earlier := by
  obtain ⟨span, -⟩ := read.span
  rw [span] at continues ⊢
  obtain ⟨first, foundFirst, -, starts⟩ := read.first_token
  have behind := scanned.start_lt lower foundFirst foundEarlier
  rw [starts] at behind
  exact ⟨behind, Nat.lt_trans (scanned.start_lt upper foundEarlier found) continues.2⟩

/-- What the declaration reads is past the first column. -/
theorem past (read : ReadFrom input entry start stop) (s : Stretch) (same : s.input = input)
    (first : s.first = start.index) {index : Nat} (lower : start.index ≤ index)
    (upper : index < stop.index) : s.Past index := by
  subst same
  have fits : s.Fits start := by
    refine ⟨read.coherent, Nat.le_of_eq read.span.2.symm, ?_, Nat.le_of_eq first⟩
    rw [Cursor.reference, read.indentation]
    exact Nat.le_refl _
  have clear : s.Clear start := by
    refine read.poised.clear fun inside => ?_
    omega
  exact (topLevel_indents.leads s fits (fun _ => clear) read.run).past index lower upper

end Grammar.ReadFrom

/-- Where a declaration first returns to the first column, it does so at a token that is tied to
what stands before it: what has been read waits for more, or nothing begins with the token. -/
theorem first_unindented_token_is_tied {source : Text} {tokens : List Token} {module : Module}
    (scan : Token.scan source = .ok tokens) (parsed : Module.parse source = .ok module)
    {entry : Located TopLevel} (member : entry ∈ module.body)
    (declares : entry.value.isComment = false) :
    entry.span.start.column = 1 ∧
    ∀ before token after, (tokens.filter fun token => !token.isComment) = before ++ token :: after →
      entry.span.Continues token → token.span.start.column = 1 →
      (∀ earlier ∈ before, entry.span.Continues earlier → 1 < earlier.span.start.column) →
      Tied before.reverse token := by
  obtain ⟨input, stop, same, scanInput, run⟩ := run_eq_ok parsed
  obtain rfl : input.tokens.toList = tokens := Except.ok.inj (scanInput.symm.trans scan)
  have scanned : input.Scanned := .of_scan same scanInput
  rcases Grammar.module_readFrom scanned run entry member with ⟨comment, isComment⟩ |
    ⟨start, stop, read⟩
  · rw [isComment] at declares
    cases declares
  · have first : entry.span.start.column = 1 := by
      rw [read.span.1]
      exact read.span.2
    refine ⟨first, fun before token after split continues column earlier => ?_⟩
    obtain ⟨index, found, solid, readBefore⟩ := Input.readBefore_of_filter split
    obtain ⟨lower, upper⟩ := read.index_of_continues scanned found continues
    by_contra loose
    -- Up to the token everything that is tied is past the first column, since everything is; so the
    -- token is, too.
    have tied : ∀ i other, start.index < i → i < index + 1 → input.tokens[i]? = some other →
          other.isComment = false → Tied (input.readBefore i) other →
          1 < other.span.start.column := by
      intro i other above below foundOther solidOther isTied
      by_cases last : i = index
      · subst last
        obtain rfl : token = other := Option.some.inj (found.symm.trans foundOther)
        exact absurd (readBefore ▸ isTied) loose
      · have early : i < index := by omega
        refine earlier other ?_ (read.continues_of_index scanned found continues
            foundOther above early)
        have among : other ∈ input.readBefore index := by
          rw [Input.readBefore, List.mem_reverse, List.mem_filter]
          refine ⟨List.mem_of_getElem? (i := i) ?_, by simp [solidOther]⟩
          rw [List.getElem?_take_of_lt early, Array.getElem?_toList, foundOther]
        rwa [readBefore, List.mem_reverse] at among
    have past := read.past ⟨input, scanned, start.index, index + 1, tied⟩ rfl rfl
      (Nat.le_of_lt lower) upper lower (Nat.lt_succ_self _) token found solid
    omega

/-- The declarations of a block in the first column are tied only where the block begins, and there
it returns first. -/
theorem unindented_block_returns_tied :
    ∃ tokens module, Token.scan "f = let\ny = 1\nz = 2\nin y\ng = f" = .ok tokens ∧
      Module.parse "f = let\ny = 1\nz = 2\nin y\ng = f" = .ok module ∧ module.body.length = 2 ∧
      ∀ entry ∈ module.body, entry.value.isComment = false ∧ entry.span.start.column = 1 ∧
      ∀ before token after, (tokens.filter fun token => !token.isComment) = before ++ token ::
      after → entry.span.Continues token → token.span.start.column = 1 →
      (∀ earlier ∈ before, entry.span.Continues earlier → 1 < earlier.span.start.column) →
      Tied before.reverse token := by
  let source : Text := "f = let\ny = 1\nz = 2\nin y\ng = f"
  have entries : (Module.parse source).toOption.map (·.body.map (·.value.isComment)) =
        some [false, false] := by
    decide +kernel
  obtain ⟨module, read, kinds⟩ := ok_of_toOption_map entries
  obtain ⟨input, _, _, scan, _⟩ := run_eq_ok read
  refine ⟨_, module, scan, read, by simpa using congrArg List.length kinds, fun entry member => ?_⟩
  have declares : entry.value.isComment = false := by
    have found := List.mem_map_of_mem
      (f := fun entry : Located TopLevel => entry.value.isComment) member
    rw [kinds] at found
    simpa using found
  exact ⟨declares, first_unindented_token_is_tied scan read member declares⟩

/-- A definition whose body stands in the first column is read as a single declaration. -/
theorem unindented_body_read :
    Token.scan "x =\n1\n" = .ok
        [⟨.lowerIdentifier, "x", ⟨⟨0, 1, 1⟩, ⟨1, 1, 2⟩⟩⟩, ⟨.equals, "=", ⟨⟨2, 1, 3⟩, ⟨3, 1, 4⟩⟩⟩,
          ⟨.number, "1", ⟨⟨4, 2, 1⟩, ⟨5, 2, 2⟩⟩⟩, ⟨.eof, [], ⟨⟨6, 3, 1⟩, ⟨6, 3, 1⟩⟩⟩] ∧
      ∃ module entry, Module.parse "x =\n1\n" = .ok module ∧ module.body = [entry] ∧
        entry.value.isComment = false ∧ entry.span = ⟨⟨0, 1, 1⟩, ⟨5, 2, 2⟩⟩ := by
  refine ⟨by decide +kernel, ?_⟩
  have entries : (Module.parse "x =\n1\n").toOption.map (·.body.map fun entry =>
        (entry.value.isComment, entry.span)) = some [(false, ⟨⟨0, 1, 1⟩, ⟨5, 2, 2⟩⟩)] := by
    decide +kernel
  obtain ⟨module, read, body⟩ := ok_of_toOption_map entries
  obtain ⟨entry, only, told⟩ := List.map_eq_singleton_iff.mp body
  obtain ⟨declares, span⟩ := Prod.mk.inj told
  exact ⟨module, entry, read, only, declares, span⟩

/-- A declaration may go on in the first column: the body of a definition is not checked to be
indented. -/
theorem unindented_body_is_accepted :
    ∃ tokens module entry token, Token.scan "x =\n1\n" = .ok tokens ∧
      Module.parse "x =\n1\n" = .ok module ∧ entry ∈ module.body ∧ entry.value.isComment = false ∧
      token ∈ tokens ∧ token.isComment = false ∧ entry.span.Continues token ∧
      token.span.start.column = 1 := by
  obtain ⟨scan, module, entry, read, only, declares, span⟩ := unindented_body_read
  refine ⟨_, module, entry, ⟨.number, "1", ⟨⟨4, 2, 1⟩, ⟨5, 2, 2⟩⟩⟩, scan, read, by simp [only],
    declares, by simp, rfl, ?_, rfl⟩
  rw [span]
  exact ⟨by decide, by decide⟩

end Marginalia
