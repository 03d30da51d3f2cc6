import Marginalia.Grammar.Joined
import Marginalia.Grammar.Word
import Marginalia.Proofs.Tiling.Laying

/-!
# Laying out tokens, nodes and repetitions

What the parsers of single tokens lay out, how a run becomes a node with a span, and what is laid
out by the combinators that run a parser again and again.
-/

namespace Marginalia

open Marginalia.Parser

variable {α β : Type} {input : Input} {origin : Cursor}

/-! ## Tokens and blanks -/

section Tokens

variable (scanned : input.Scanned) {stage : Stage}

include scanned

/-- Reading a token that is neither a comment nor the end brings a run behind a token. -/
theorem satisfy_lays {property : Token → Bool}
    (notEnd : ∀ token, property token = true → token.kind ≠ .eof) (label : String) :
    Lays input origin [] stage stage.read (satisfy property label) (outlined fun _ => []) := by
  rintro start ⟨before, next, after, stands⟩ holds token stop run
  obtain ⟨found, ⟨starts, noComment, isToken⟩, rfl⟩ := satisfy_done run
  obtain rfl : next = token := Option.some.inj (stands.tokenAt?.symm.trans found)
  have solid := notEnd next isToken
  have member : next ∈ solidOf input.tokens.toList := by
    have inside : next ∈ input.tokens.toList := by
      rw [stands.tokens]
      exact List.mem_append_right _ (.head _)
    exact List.mem_filter.mpr ⟨inside, by simp [noComment, solid]⟩
  obtain ⟨second, rest, -, stands', wide⟩ := stands.past scanned solid
  have place := stands.start_eq scanned starts
  have offset : next.span.start.offset = start.position.offset := starts
  have behind : input.BehindToken (past next start) := ⟨next, member, rfl⟩
  have row :
      Row input.tokens.toList start.position.offset [] (past next start).position.offset := by
    apply Row.nil
    show start.position.offset ≤ next.span.stop.offset
    omega
  have le : start.index ≤ (past next start).index := Nat.le_succ _
  refine ⟨⟨⟨_, _, _, stands'⟩, ?_, le⟩, [], row, rfl⟩
  cases stage with
  | fresh =>
    refine ⟨⟨⟨next, member, ?_⟩, ?_⟩, behind⟩
    · rw [place]
      exact holds.2
    · show origin.index < start.index + 1
      have same : start.index = origin.index := holds.1
      omega
  | loose => trivial
  | begun => exact ⟨holds.mono le, behind⟩
  | ended => exact ⟨holds.1.mono le, behind⟩

/-- Reading a token of a kind brings a run behind a token. -/
theorem token_lays {kind : TokenKind} (notEnd : kind ≠ .eof) (label : String) :
    Lays input origin [] stage stage.read (token kind label) (outlined fun _ => []) := by
  apply satisfy_lays scanned
  intro token isKind
  rw [beq_iff_eq.mp isKind]
  exact notEnd

/-- Reading a token with a spelling brings a run behind a token. -/
theorem spelled_lays {kind : TokenKind} (notEnd : kind ≠ .eof) (word : String) :
    Lays input origin [] stage stage.read (spelled kind word) (outlined fun _ => []) := by
  apply satisfy_lays scanned
  intro token isWord
  rw [beq_iff_eq.mp (Bool.and_eq_true_iff.mp isWord).1]
  exact notEnd

/-- Reading a reserved word brings a run behind a token. -/
theorem keyword_lays (word : String) :
    Lays input origin [] stage stage.read (keyword word) (outlined fun _ => []) :=
  spelled_lays scanned (by decide) word

/-- Reading an operator brings a run behind a token. -/
theorem operator_lays (symbol : String) :
    Lays input origin [] stage stage.read (operator symbol) (outlined fun _ => []) :=
  spelled_lays scanned (by decide) symbol

/-- Passing over blanks and comments lays out nothing, and brings a run behind no token. -/
theorem whitespace_lays :
    Lays input origin [] stage stage.skip whitespace (outlined fun _ => []) := by
  rintro start ⟨before, next, after, stands⟩ holds comments stop run
  obtain ⟨_, _, _, _, _, again, stands', -, -, index, offset⟩ := stands.whitespace scanned
  obtain ⟨-, rfl⟩ := Outcome.done.inj (again.symm.trans run)
  refine ⟨⟨⟨_, _, _, stands'⟩, ?_, index⟩, [], .nil _ offset, rfl⟩
  cases stage with
  | fresh => trivial
  | loose => trivial
  | begun => exact holds.mono index
  | ended => exact holds.1.mono index

/-- A value between comments is laid out as the value. -/
theorem Lays.padded {parser : Parser α} {first : α → List Outline}
    (lays : Lays input origin [] stage.skip stage.skip.read parser (outlined first)) :
    Lays input origin [] stage stage.skip.read.skip (padded parser) (outlined (first ·.value)) := by
  refine .bind (whitespace_lays scanned) fun before => .bind lays fun value => ?_
  exact .bind (whitespace_lays scanned) fun after => .pure fun _ => by simp [outlined]

end Tokens

/-! ## Nodes -/

section Nodes

variable {parser : Parser α} {outlines : α → List Outline}

/-- What reads a token first and a token last brings every run behind a token. -/
theorem Solid.lays (solid : Solid input parser outlines) (stage : Stage) :
    Lays input origin [] stage stage.read parser (outlined outlines) := by
  intro start place holds value stop run
  obtain ⟨⟨place', ⟨begun, behind⟩, le⟩, more, row, same⟩ :=
    solid start start place ⟨rfl, rfl⟩ value stop run
  refine ⟨⟨place', ?_, le⟩, more, row, same⟩
  cases stage with
  | fresh =>
    refine ⟨⟨?_, ?_⟩, behind⟩
    · rw [← holds.2]
      exact begun.starts
    · have index : start.index = origin.index := holds.1
      rw [← index]
      exact begun.later
  | loose => trivial
  | begun => exact ⟨holds.mono le, behind⟩
  | ended => exact ⟨holds.1.mono le, behind⟩

/-- A run that reads a token first and a token last is as wide as a span can be, from where it
begins to where it ends. -/
theorem Row.around (scanned : input.Scanned) {start stop : Cursor} {inside : List Outline}
    (place : input.At start) (place' : input.At stop) (begun : input.Begun start stop)
    (behind : input.BehindToken stop)
    (row : Row input.tokens.toList start.position.offset inside stop.position.offset) :
    Row input.tokens.toList start.position.offset [.part ⟨start.position, stop.position⟩ inside]
      stop.position.offset := by
  obtain ⟨_, _, _, stands⟩ := place
  obtain ⟨_, _, _, stands'⟩ := place'
  have wide := stands.offset_lt scanned stands' begun.later
  have around : Row input.tokens.toList (⟨start.position, stop.position⟩ : Span).start.offset inside
      (⟨start.position, stop.position⟩ : Span).stop.offset := row
  exact around.part begun.starts behind wide

/-- A run tells the same whatever it began with, if that is the same place. -/
theorem Solid.of_runs
    (lays : ∀ start, input.At start → ∀ value stop, parser input start = .done value stop →
      (input.At stop ∧ Stage.ended.Holds input start stop ∧ start.index ≤ stop.index) ∧
        Row input.tokens.toList start.position.offset (outlines value) stop.position.offset) :
    Solid input parser outlines := by
  intro origin start place holds value stop run
  obtain ⟨⟨place', ⟨begun, behind⟩, le⟩, row⟩ := lays start place value stop run
  refine ⟨⟨place', ⟨⟨?_, ?_⟩, behind⟩, le⟩, _, row, rfl⟩
  · rw [← holds.2]
    exact begun.starts
  · have index : start.index = origin.index := holds.1
    rw [← index]
    exact begun.later

/-- A run is laid out as a node, if its value is as one around what the run lays out; or as what it
lays out. -/
theorem Solid.of_node (scanned : input.Scanned)
    (lays : ∀ origin, Lays input origin [] .fresh .ended parser fun value found stop =>
      outlines value = found ∨ outlines value = [.part ⟨origin.position, stop.position⟩ found]) :
    Solid input parser outlines := by
  refine .of_runs fun start place value stop run => ?_
  obtain ⟨told, more, row, fits⟩ := lays start start place ⟨rfl, rfl⟩ value stop run
  refine ⟨told, ?_⟩
  rcases fits with same | around
  · rw [same]
    exact row
  · rw [around]
    exact row.around scanned place told.1 told.2.1.1 told.2.1.2

/-- A located value is laid out as a node around what the value lays out. -/
theorem Solid.located (scanned : input.Scanned) {node : Located α → List Outline}
    {described : α → List Outline → Cursor → Prop}
    (lays : ∀ origin, Lays input origin [] .fresh .ended parser described)
    (fits : ∀ value found stop, described value found stop →
      ∀ span, node ⟨span, value⟩ = [.part span found]) : Solid input (located parser) node := by
  refine .of_node scanned fun origin start place holds value stop run => ?_
  obtain ⟨told, more, row, same, spanned⟩ := (lays origin).located start place holds value stop run
  refine ⟨told, more, row, .inr ?_⟩
  rw [← spanned]
  exact fits value.value _ stop same value.span

end Nodes

/-! ## Repetition and bracketed sequences -/

section Repetition

variable {outlines : α → List Outline}

/-- Values are laid out one after the other, where each leaves the stage as it is. -/
theorem valuesUpTo_lays {parser : Parser (Option α)} {stage : Stage}
    (lays : Lays input origin [] stage stage parser (outlined (·.elim [] outlines))) (bound : Nat) :
    Lays input origin [] stage stage (valuesUpTo parser bound) (outlined (·.flatMap outlines)) := by
  have told : Lays input origin [] stage stage cursor (outlined fun _ => []) :=
    .still fun _ _ _ run => (Outcome.done.inj run).2.symm
  induction bound with
  | zero =>
    intro start _ _ value stop run
    cases run
  | succ bound ih =>
    apply Lays.bind told
    intro before
    apply Lays.bind lays.optional
    intro found
    match found with
    | some (some value) =>
      apply Lays.bind told
      intro after
      split
      · exact .bind ih fun rest => .pure fun _ => by simp [outlined]
      · exact .pure fun _ => by simp [outlined]
    | some none => exact .pure fun _ => by simp [outlined]
    | none => exact .pure fun _ => by simp [outlined]

/-- A repeated parser is laid out as its values, one after the other. -/
theorem Lays.many {parser : Parser α} {stage : Stage}
    (lays : Lays input origin [] stage stage parser (outlined outlines)) :
    Lays input origin [] stage stage (many parser) (outlined (·.flatMap outlines)) := by
  have found : Lays input origin [] stage stage (some <$> parser) (outlined (·.elim [] outlines)) :=
    .bind lays fun _ => .pure fun _ => rfl
  exact valuesUpTo_lays found input.repetitionLimit

omit outlines in
/-- A repetition ends at once, or it has a first value and ends or goes on behind it. -/
theorem valuesUpTo_some_done {parser : Parser α} {bound : Nat}
    {start stop : Cursor} {values : List α}
    (run : valuesUpTo (some <$> parser) (bound + 1) input start = .done values stop) :
    (values = [] ∧ stop = start) ∨ ∃ value between, parser input start = .done value between ∧
      ((values = [value] ∧ stop = between) ∨ ∃ rest, values = value :: rest ∧
      valuesUpTo (some <$> parser) bound input between = .done rest stop) := by
  obtain ⟨_, _, told, run⟩ := bind_done.mp run
  obtain ⟨rfl, rfl⟩ := Outcome.done.inj told
  obtain ⟨found, _, runOptional, run⟩ := bind_done.mp run
  rcases optional_done runOptional with ⟨inner, rfl, runInner⟩ | ⟨rfl, rfl⟩
  · obtain ⟨value, between, runValue, made⟩ := bind_done.mp runInner
    obtain ⟨rfl, rfl⟩ := Outcome.done.inj made
    refine .inr ⟨value, between, runValue, ?_⟩
    obtain ⟨_, _, told, run⟩ := bind_done.mp run
    obtain ⟨rfl, rfl⟩ := Outcome.done.inj told
    split at run
    · obtain ⟨rest, _, runRest, made⟩ := bind_done.mp run
      obtain ⟨rfl, rfl⟩ := Outcome.done.inj made
      exact .inr ⟨rest, rfl, runRest⟩
    · obtain ⟨rfl, rfl⟩ := Outcome.done.inj run
      exact .inl ⟨rfl, rfl⟩
  · obtain ⟨rfl, rfl⟩ := Outcome.done.inj run
    exact .inl ⟨rfl, rfl⟩

variable (scanned : input.Scanned) {item : Parser α} (solid : Solid input item outlines)
  {close : TokenKind} (notEnd : close ≠ .eof) (label : String)

include scanned solid notEnd

/-- Items are laid out one after the other, with a closing token behind them. -/
theorem itemsUpTo_lays (bound : Nat) (before : Comments) :
    Lays input origin [] .begun .ended (itemsUpTo close item label bound before)
      (outlined (·.flatMap (outlines ·.value))) := by
  induction bound generalizing before with
  | zero =>
    intro start _ _ value stop run
    cases run
  | succ bound ih =>
    apply Lays.bind (solid.lays .begun)
    intro value
    apply Lays.bind (whitespace_lays scanned)
    intro after
    apply Lays.bind (.peekThat _)
    intro goesOn
    split
    · apply Lays.bind (token_lays scanned (by decide) _)
      intro _
      apply Lays.bind (whitespace_lays scanned)
      intro next
      exact .bind (ih next) fun rest => .pure fun _ => by simp [outlined]
    · apply Lays.bind (token_lays scanned notEnd label)
      intro _
      exact .pure fun _ => by simp [outlined]

/-- A sequence is laid out as its items, with a closing token behind them. -/
theorem separated_lays :
    Lays input origin [] .ended .ended (separated close item label)
      (outlined (·.items.flatMap (outlines ·.value))) := by
  apply Lays.bind (whitespace_lays scanned)
  intro before
  apply Lays.bind (.peekThat _)
  intro ends
  split
  · apply Lays.bind (token_lays scanned notEnd label)
    intro _
    exact .pure fun _ => by simp [outlined]
  · have items : Lays input origin [] .begun .ended
        (fun input => itemsUpTo close item label input.repetitionLimit before input)
        (outlined (·.flatMap (outlines ·.value))) :=
      itemsUpTo_lays scanned solid notEnd label input.repetitionLimit before
    exact .bind items fun found => .pure fun _ => by simp [outlined]

/-- A bracketed sequence is laid out as its items. -/
theorem group_solid {opening : TokenKind} (notEndOpening : opening ≠ .eof) :
    Solid input (group opening close item label) (·.1.items.flatMap (outlines ·.value)) := by
  intro origin
  have inner : Lays input origin [] .fresh .ended
        (do let _ ← token opening label; separated close item label)
        (outlined (·.items.flatMap (outlines ·.value))) := by
    apply Lays.bind (token_lays scanned notEndOpening label)
    intro _
    exact .last (separated_lays scanned solid notEnd label) fun _ _ => rfl
  exact inner.trackNewline

end Repetition

end Marginalia

namespace Marginalia.Grammar

open Marginalia.Parser

variable {α : Type} {input : Input} {origin : Cursor} (scanned : input.Scanned)

include scanned

/-! ## Names and literals -/

/-- What a token makes, once it is read, is laid out as nothing. -/
theorem tokenThen_solid {property : Token → Bool}
    (notEnd : ∀ token, property token = true → token.kind ≠ .eof) (label : String)
    {next : Token → Parser α}
    (still : ∀ token start value stop, next token input start = .done value stop → stop = start) :
    Solid input (satisfy property label >>= next) fun _ => [] := by
  intro origin
  apply Lays.bind (satisfy_lays scanned notEnd label)
  intro token
  exact .last (.still (still token)) fun _ _ => rfl

/-- A name, or anything else made of one token of a kind, is laid out as nothing. -/
theorem tokenOf_solid {kind : TokenKind} (notEnd : kind ≠ .eof) (label : String)
    (make : Token → α) : Solid input (do return make (← token kind label)) fun _ => [] := by
  refine tokenThen_solid scanned (fun token isKind => ?_) label fun _ _ _ _ run =>
    (Outcome.done.inj run).2.symm
  rw [beq_iff_eq.mp isKind]
  exact notEnd

/-- A lower-case name is laid out as nothing. -/
theorem lowerName_solid : Solid input lowerName fun _ => [] := tokenOf_solid scanned (by decide) _ _

/-- An upper-case name is laid out as nothing. -/
theorem upperName_solid : Solid input upperName fun _ => [] := tokenOf_solid scanned (by decide) _ _

/-- The symbol of an operator is laid out as nothing. -/
theorem operatorSymbol_solid : Solid input operatorSymbol fun _ => [] :=
  tokenOf_solid scanned (by decide) _ _

/-- A number, string or character is laid out as nothing. -/
theorem literal_solid : Solid input literal fun _ => [] := by
  refine tokenThen_solid scanned (fun token isLiteral ends => ?_) _
    fun token start value stop run => ?_
  · rw [ends] at isLiteral
    cases isLiteral
  · by_cases string : token.kind = .string
    · simp only [string] at run
      exact (Outcome.done.inj run).2.symm
    · by_cases char : token.kind = .char
      · simp only [char] at run
        exact (Outcome.done.inj run).2.symm
      · cases number : Literal.ofNumber? token.lexeme with
        | some literal =>
          simp only [number] at run
          exact (Outcome.done.inj run).2.symm
        | none =>
          simp only [number] at run
          cases run

/-- An operator between two operands is laid out as nothing. -/
theorem infixOperator_solid : Solid input infixOperator fun _ => [] :=
  fun _ => .bind (operatorSymbol_solid scanned _) fun _ => .pure fun _ => rfl

/-- An operator in parentheses is laid out as nothing. -/
theorem parenthesizedOperator_solid : Solid input parenthesizedOperator fun _ => [] := by
  intro origin
  apply Lays.bind (token_lays scanned (by decide) _)
  intro _
  apply Lays.bind ((operatorSymbol_solid scanned).lays _)
  intro symbol
  apply Lays.bind (token_lays scanned (by decide) _)
  intro _
  exact .pure fun _ => rfl

/-- Further parts of a name are laid out as nothing. -/
theorem dottedUpperNames_lays :
    Lays input origin [] .ended .ended dottedUpperNames (outlined fun _ => []) := by
  have part : Lays input origin [] .ended .ended (attempt do let _ ← dot; upperName)
        (outlined fun _ => []) := by
    apply Lays.attempt
    apply Lays.bind (token_lays scanned (by decide) _)
    intro _
    exact .last ((upperName_solid scanned).lays _) fun _ _ => rfl
  exact .last part.many fun _ _ => by simp [outlined]

/-- A name after a dot is laid out as nothing. -/
theorem dottedLowerName_lays :
    Lays input origin [] .ended .ended dottedLowerName (outlined fun _ => []) := by
  apply Lays.attempt
  apply Lays.bind (token_lays scanned (by decide) _)
  intro _
  exact .last ((lowerName_solid scanned).lays _) fun _ _ => rfl

/-- A qualified name is laid out as nothing. -/
theorem qualifiedUpperName_solid : Solid input qualifiedUpperName fun _ => [] := by
  intro origin
  apply Lays.bind (upperName_solid scanned _)
  intro first
  exact .bind (dottedUpperNames_lays scanned) fun rest => .pure fun _ => rfl

/-- A name of a value or of a constructor is laid out as nothing. -/
theorem nameReference_solid : Solid input nameReference fun _ => [] := by
  intro origin
  apply Lays.bind (.peekThat _)
  intro isLower
  split
  · exact .bind (lowerName_solid scanned _) fun name => .pure fun _ => rfl
  · apply Lays.bind (.peekThat _)
    intro isUpper
    split
    · apply Lays.bind (upperName_solid scanned _)
      intro first
      apply Lays.bind (dottedUpperNames_lays scanned)
      intro rest
      apply Lays.bind (dottedLowerName_lays scanned).optional
      intro last
      cases last with
      | some name => exact .pure fun _ => rfl
      | none => exact .pure fun _ => rfl
    · exact .fail _

/-! ## Arguments and operands -/

variable {item : Parser α} {outlines : α → List Outline} (solid : Solid input item outlines)

include solid

/-- An argument is laid out as itself. -/
theorem spacedItem_lays :
    Lays input origin [] .ended .ended (spacedItem item) (outlined (outlines ·.value)) := by
  apply Lays.attempt
  apply Lays.bind (whitespace_lays scanned)
  intro comments
  apply Lays.bind .indented
  intro _
  exact .bind (solid.lays _) fun value => .pure fun _ => rfl

/-- Arguments are laid out one after the other. -/
theorem spaced_lays :
    Lays input origin [] .ended .ended (spaced item) (outlined (·.flatMap (outlines ·.value))) :=
  (spacedItem_lays scanned solid).many

/-- An argument that is no operand of a minus sign is laid out as itself. -/
theorem spacedArgument_lays :
    Lays input origin [] .ended .ended (spacedArgument item) (outlined (outlines ·.value)) := by
  apply Lays.attempt
  apply Lays.place
  intro start
  apply Lays.bind (whitespace_lays scanned)
  intro comments
  apply Lays.place
  intro place
  apply Lays.bind (.peekThat _)
  intro isOperator
  have next : Lays input origin [] .begun .begun peek (outlined fun _ => []) :=
    .still fun _ _ _ run => (peek_done run).2
  apply Lays.bind next
  intro next
  split
  · exact .fail _
  · apply Lays.bind .indented
    intro _
    exact .bind (solid.lays _) fun value => .pure fun _ => rfl

omit scanned solid in
/-- The operands of a chain are the first one and those of the links. -/
theorem operands_outlines (outlines : α → List Outline) (before : Comments) (current : α)
    (links : List (Link α)) :
    outlines (Link.operands before current links).1.value ++
      (Link.operands before current links).2.flatMap (outlines ·.value) = outlines current ++
      links.flatMap (outlines ·.operand) := by
  induction links generalizing before current with
  | nil => simp [Link.operands, Commented.pre]
  | cons link rest ih =>
    have further := ih link.after link.operand
    rw [Link.operands]
    simp only [List.flatMap_cons]
    rw [further]

/-- Operands joined by a connective are laid out one after the other. -/
theorem joined_solid {connective : Parser Token}
    (connects : ∀ stage, Lays input origin [] stage stage.read connective (outlined fun _ => [])) :
    Lays input origin [] .fresh .ended (joined connective item) (outlined fun operands =>
      outlines operands.1.value ++ operands.2.flatMap (outlines ·.value)) := by
  have further : Lays input origin [] .ended .ended (link connective item)
        (outlined (outlines ·.operand)) := by
    apply Lays.attempt
    apply Lays.bind (whitespace_lays scanned)
    intro before
    apply Lays.bind (connects _)
    intro _
    apply Lays.bind (whitespace_lays scanned)
    intro after
    exact .bind (solid.lays _) fun value => .pure fun _ => rfl
  apply Lays.bind (solid origin)
  intro first
  apply Lays.bind further.many
  intro links
  exact .pure fun _ => by simpa [outlined] using operands_outlines outlines [] first links

end Marginalia.Grammar
