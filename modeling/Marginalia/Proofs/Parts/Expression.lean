import Marginalia.Proofs.Parts.Minus
import Marginalia.Proofs.Parts.Term

/-!
# Expressions obey the laws

One statement for each rule of the grammar of expressions that is no term, over what is known of the
parsers inside it. Expressions and terms are then read by their rules over themselves, and what is
inside begins behind more tokens, so the laws follow by induction on the tokens that are left.
-/

namespace Marginalia

open Marginalia.Parser Marginalia.Grammar

variable {input : Input} {levels : List Nat} {least : Nat} {start : Cursor}

/-- An operand is no chain. -/
theorem ExpressionNode.isChain_of_isOperand {node : ExpressionNode Expression}
    (isOperand : node.isOperand = true) : node.isChain = false := by
  cases node <;> first | rfl | cases isOperand

/-- What extends as far right as possible is no chain. -/
theorem ExpressionNode.isChain_of_isOpenEnded {node : ExpressionNode Expression}
    (isOpenEnded : node.isOpenEnded = true) : node.isChain = false := by
  cases node <;> first | rfl | cases isOpenEnded

/-- An operand is no conditional. -/
theorem ExpressionNode.isConditional_of_isOperand {node : ExpressionNode Expression}
    (isOperand : node.isOperand = true) : node.isConditional = false := by
  cases node <;> first | rfl | cases isOperand

/-! ## Applications -/

/-- A line break between two places is before a place in between or behind it. -/
theorem Text.crosses_through (source : Text) {start middle stop : Position}
    (first : start.offset ≤ middle.offset) (second : middle.offset ≤ stop.offset) :
    source.crosses start stop = (source.crosses start middle || source.crosses middle stop) := by
  rw [crosses, crosses, crosses, ← hasNewline_append, slice_append_slice source first second]

/-- Arguments from one place to another, each with whether a line break stands before its end. -/
inductive Input.Arguments (input : Input) (reference : Nat) :
    Position → List (Commented Expression × Bool) → Position → Prop where
  | nil (place : Position) : Arguments input reference place [] place
  | cons {start between stop : Position} {argument : Commented Expression} {crossed : Bool}
      {rest : List (Commented Expression × Bool)} (le : start.offset ≤ between.offset)
      (stops : argument.value.span.stop = between)
      (crosses : crossed = input.source.crosses start between)
      (apart : argument.value.node.isNegation = true → argument.value.span.start.offset ≠
        start.offset) (argues : input.Argues reference Expression.span .expression (·.node.isTerm =
        true) argument.value) (further : Arguments input reference between rest stop) :
      Arguments input reference start ((argument, crossed) :: rest) stop

namespace Input.Arguments

variable {reference : Nat} {first last : Position} {found : List (Commented Expression × Bool)}

/-- Arguments stop where they start or behind it. -/
theorem le (arguments : input.Arguments reference first found last) :
    first.offset ≤ last.offset := by
  induction arguments with
  | nil => exact Nat.le_refl _
  | cons le _ _ _ _ _ ih => exact Nat.le_trans le ih

/-- A line break among arguments stands before the end of one of them. -/
theorem crosses_eq (arguments : input.Arguments reference first found last) :
    (found.map (·.2)).or = input.source.crosses first last := by
  induction arguments with
  | nil place => simp [Text.crosses, Text.slice_of_le, Text.hasNewline]
  | cons le _ crosses _ _ further ih =>
    rw [List.map_cons, List.or_cons, ih, crosses, Text.crosses_through _ le further.le]

/-- Arguments obey the laws, are terms and stand past the reference. -/
theorem argues (arguments : input.Arguments reference first found last) :
    ∀ one ∈ found.map (·.1),
      input.Argues reference Expression.span .expression (·.node.isTerm = true) one.value := by
  induction arguments with
  | nil => exact List.forall_mem_nil _
  | cons _ _ _ _ argues _ ih => exact List.forall_mem_cons.mpr ⟨argues, ih⟩

/-- A negation among the arguments does not stand directly behind what is before it. -/
theorem apart (arguments : input.Arguments reference first found last) {previous : Expression}
    (stops : previous.span.stop = first) :
    ∀ pair ∈ ((found.map (·.1)).map (·.value)).zip (previous :: (found.map (·.1)).map (·.value)),
      pair.1.Apart pair.2 := by
  induction arguments generalizing previous with
  | nil => exact List.forall_mem_nil _
  | cons _ stopsHere _ apart _ _ ih =>
    refine List.forall_mem_cons.mpr ⟨fun isNegation => ?_, ih stopsHere⟩
    rw [stops]
    exact apart isNegation

end Input.Arguments

/-- Layouts of applications tell where the first line break stands. -/
theorem applicationLayout_eq {source : Text} {start behindHead behindFirst stop : Position}
    (head : start.offset ≤ behindHead.offset) (first : behindHead.offset ≤ behindFirst.offset)
      (rest : List Bool)
    (crosses : rest.or = source.crosses behindFirst stop) :
    applicationLayout (source.crosses start behindHead)
      (source.crosses behindHead behindFirst) rest =
      if source.crosses start behindFirst then .splitFirst
      else .joinFirst (if source.crosses behindFirst stop then .splitAll else .joinAll) := by
  rw [applicationLayout, ← Text.crosses_through source head first, crosses]
  rfl

section Applications

variable (scanned : input.Scanned) {term : Parser Expression}
  (terms : Builds input least term Expression.span .expression (·.IsArgument input.tokens.toList))

include scanned terms

/-- The terms behind a head are arguments, and no further one is read behind them. -/
theorem arguments_ensures {count : Nat} (enough : least ≤ count) :
    Ensures input levels count count start (many (trackNewline (spacedArgument term)))
      fun found stop =>
      input.Arguments (levels.headD 1) start.position found stop.position ∧
        ∀ argument after, spacedArgument term input stop ≠ .done argument after := by
  have argument : ∀ more start, count ≤ more →
      Ensures input levels more (more + 1) start (trackNewline (spacedArgument term)) _ :=
    fun more start le => (Ensures.wide scanned fun further le' =>
        spacedArgument_ensures scanned fun start =>
      terms levels further start (by omega)).trackNewline
  have arguments :
      Ensures input levels count count start (many (trackNewline (spacedArgument term)))
        fun found stop => input.Arguments (levels.headD 1) start.position found stop.position := by
    refine .manyChain (fun start => (argument count start (Nat.le_refl _)).stay)
      (motive := fun start found stop =>
      input.Arguments (levels.headD 1) start.position found stop.position) (fun cursor => .nil _) ?_
    intro start found between rest stop facts further
    obtain ⟨crosses, wide, first, past, unspaced, span, obeys, isArgument⟩ := facts
    refine .cons (Nat.le_of_lt wide) (congrArg Span.stop span) crosses ?_
      ⟨?_, obeys, isArgument.isTerm⟩ further
    · intro isNegation same
      have minus := isArgument.negates isNegation
      rw [span] at minus same
      exact unspaced same minus
    · rw [span]
      exact past
  refine arguments.also fun level found stop run => ?_
  obtain ⟨-, -, refused⟩ := Ensures.manyUntil
    (fun more start le => (argument more start le).imp fun _ _ _ => trivial) level found stop run
  intro argument after run
  obtain ⟨crossed, tracked⟩ :
      ∃ crossed, trackNewline (spacedArgument term) input stop = .done (argument, crossed) after :=
    ⟨_, by rw [trackNewline, run]⟩
  exact refused _ _ tracked

/-- Applications have an argument, and arguments stand past the reference. No argument is read
behind an application. -/
theorem application_ensures {count : Nat} (enough : least ≤ count) :
    Ensures input levels count (count + 1) start (application term) fun value stop =>
      value.span = ⟨start.position, stop.position⟩ ∧
        input.Obeys (levels.headD 1) (.expression value) ∧ value.node.isOperand = true ∧
        input.Closes term value stop := by
  refine .expecting _ (.position ?_)
  have head : Ensures input levels count (count + 1) start term _ :=
    .wide scanned fun more le => terms levels more start (Nat.le_trans enough le)
  refine .bind head.trackNewline fun found between facts => ?_
  obtain ⟨value, headCrossed⟩ := found
  obtain ⟨crossesHead, wide, span, obeys, isArgument⟩ := facts
  refine .bind (arguments_ensures scanned terms (Nat.le_succ_of_le enough))
    fun found stop facts => ?_
  obtain ⟨facts, refused⟩ := facts
  have argues := facts.argues
  have apart := facts.apart (congrArg Span.stop span)
  -- without arguments the run stops where the head does, but only the places are known to agree
  generalize stopped : stop.position = place at facts
  cases facts with
  | nil =>
    rw [← stopped] at span
    exact .pure ⟨span, obeys, ExpressionNode.isOperand_of_isTerm isArgument.isTerm,
      congrArg Span.stop span, refused⟩
  | @cons _ behind _ argument crossed rest le stops crosses _ _ further =>
    have layout := applicationLayout_eq (Nat.le_of_lt wide) le (rest.map (·.2)) further.crosses_eq
    rw [← crossesHead, ← crosses] at layout
    have fits : ExpressionNode.Fits input (levels.headD 1) ⟨start.position, place⟩
        (.application value (((argument, crossed) :: rest).map (·.1))
          (applicationLayout headCrossed crossed (rest.map (·.2)))) := by
      refine ⟨⟨argument, rfl, ?_⟩,
        ⟨List.cons_ne_nil _ _, isArgument.isTerm, fun one member => (argues one member).shaped⟩,
        fun one member => (argues one member).past, apart, trivial, trivial, ?_⟩
      · rw [stops]
        exact layout
      · refine List.forall_mem_map.mpr (List.forall_mem_cons.mpr ⟨obeys, ?_⟩)
        exact List.forall_mem_map.mpr fun one member => (argues one member).obeys
    rw [← stopped] at fits
    exact .position (.pure ⟨rfl, fits.obeys, rfl, rfl, refused⟩)

omit scanned terms in
/-- An application begins with a term. -/
theorem application_done {value : Expression} {stop : Cursor}
    (run : application term input start = .done value stop) :
    ∃ head after, term input start = .done head after := by
  obtain ⟨_, _, told, run⟩ := bind_done.mp (expecting_done run)
  obtain ⟨-, rfl⟩ := Outcome.done.inj told
  obtain ⟨⟨head, _⟩, after, run, -⟩ := bind_done.mp run
  exact ⟨head, after, (trackNewline_done run).1⟩

end Applications

/-! ## Chains -/

/-- What is known of an operator and its right operand. -/
structure Input.Links (input : Input) (reference : Nat)
    (clause : Clause Reference Expression) : Prop where
  /-- The operand obeys the laws. -/
  obeys : input.Obeys reference (.expression clause.expression)
  /-- The operand is no chain. -/
  notChain : clause.expression.node.isChain = false
  /-- The operator has a symbol, which stands in the source. -/
  symbol : ∃ symbol, clause.operator.value = .operator symbol ∧ IsSymbol symbol ∧
    input.Verbatim clause.operator.span.start clause.operator.span.stop symbol

/-- What is known of the operators behind an operand, and of their right operands. -/
structure Input.Follow (input : Input) (reference : Nat) (previous : Expression)
    (clauses : List (Clause Reference Expression)) : Prop where
  /-- All operators have a symbol, and no operand on their right is a chain. -/
  links : ∀ clause ∈ clauses, input.Links reference clause
  /-- The operands between two operators are applications or terms. -/
  inner : ∀ clause ∈ clauses.dropLast, clause.expression.node.isOperand = true
  /-- Minus signs are told from negations. -/
  subtracts : ∀ pair ∈ clauses.zip (previous :: clauses.map (·.expression)),
      pair.1.Subtracts reference pair.2

namespace Input.Follow

variable {reference : Nat} {previous : Expression} {clause : Clause Reference Expression}
  {rest : List (Clause Reference Expression)}

/-- No operator follows. -/
theorem nil : input.Follow reference previous [] :=
  ⟨List.forall_mem_nil _, List.forall_mem_nil _, List.forall_mem_nil _⟩

/-- One more operator stands before others only if its right operand is an application or a term. -/
theorem cons (links : input.Links reference clause)
    (subtracts : clause.Subtracts reference previous)
    (isOperand : rest ≠ [] → clause.expression.node.isOperand = true)
    (further : input.Follow reference clause.expression rest) :
    input.Follow reference previous (clause :: rest) := by
  refine ⟨List.forall_mem_cons.mpr ⟨links, further.links⟩, ?_,
    List.forall_mem_cons.mpr ⟨subtracts, further.subtracts⟩⟩
  cases rest with
  | nil => exact List.forall_mem_nil _
  | cons second others =>
    exact List.forall_mem_cons.mpr ⟨isOperand (List.cons_ne_nil _ _), further.inner⟩

end Input.Follow

/-- What is known of a chain with a span. -/
structure Input.Chains (input : Input) (reference : Nat) (span : Span)
    (chain : OperatorChain Reference Expression) : Prop where
  /-- The layout tells whether a line break stands in the chain. -/
  layout : chain.layout = if input.source.crosses span.start span.stop then .splitAll else .joinAll
  /-- An operand without operators is the whole chain. -/
  alone : chain.clauses = [] → chain.left.span = span
  /-- The first operand obeys the laws. -/
  obeys : input.Obeys reference (.expression chain.left)
  /-- The first operand is an application or a term. -/
  isOperand : chain.left.node.isOperand = true
  /-- The operators follow it. -/
  follow : input.Follow reference chain.left chain.clauses
  /-- Operands and operators stand in a row. -/
  strung : StrungOver span chain.left chain.clauses

section Chains

variable (scanned : input.Scanned) {term last : Parser Expression}
  (terms : Builds input least term Expression.span .expression (·.IsArgument input.tokens.toList))
  (reads : ReadsNegation input term)
  (lasts : Builds input least last Expression.span .expression (·.node.isOpenEnded = true))

include scanned

/-- An operator has a symbol, which stands in the source. -/
theorem infixOperator_ensures :
    Ensures input levels least (least + 1) start infixOperator fun found stop =>
    ∃ symbol, found = .operator symbol ∧ IsSymbol symbol ∧
      input.Verbatim start.position stop.position symbol :=
  .map ((operatorSymbol_ensures scanned).imp fun symbol _ facts => ⟨symbol, rfl, facts⟩)

include terms lasts

/-- The right operand of an operator is no chain, and an application unless the chain ends with it.
Both stand in a row. -/
theorem chainClause_ensures {count : Nat} (enough : least ≤ count) (start : Cursor) :
    Ensures input levels count count start (chainClause (application term) last infixOperator)
      fun found stop =>
      input.Links (levels.headD 1) found.1 ∧
        (found.2 = false → found.1.expression.node.isOperand = true) ∧
        found.1.Strung start.position ∧ found.1.expression.span.stop = stop.position := by
  have operand : ∀ start, Ensures input levels count count start (choice
      [do return (← attempt (application term), false), do return (← last, true)]) fun found stop =>
        (start.position.offset < stop.position.offset ∧
            found.1.span = ⟨start.position, stop.position⟩) ∧
          input.Obeys (levels.headD 1) (.expression found.1) ∧ found.1.node.isChain = false ∧
          (found.2 = false → found.1.node.isOperand = true) := by
    intro start
    have applications : Ensures input levels count (count + 1) start (application term) _ :=
      .wide scanned fun more le => application_ensures scanned terms (Nat.le_trans enough le)
    have others : Ensures input levels count (count + 1) start last _ :=
      .wide scanned fun more le => lasts levels more start (Nat.le_trans enough le)
    refine .choice ?_
    simp only [List.forall_mem_cons, List.not_mem_nil, false_imp_iff, implies_true, and_true]
    constructor
    · refine .map (applications.stay.attempt.imp fun value _ facts => ?_)
      obtain ⟨wide, span, obeys, isOperand, -⟩ := facts
      exact ⟨⟨wide, span⟩, obeys, ExpressionNode.isChain_of_isOperand isOperand, fun _ => isOperand⟩
    · refine .map (others.stay.imp fun value _ facts => ?_)
      obtain ⟨wide, span, obeys, isOpenEnded⟩ := facts
      exact ⟨⟨wide, span⟩, obeys, ExpressionNode.isChain_of_isOpenEnded isOpenEnded,
        fun final => Bool.noConfusion final⟩
  have sign : ∀ start, Ensures input levels count (count + 1) start infixOperator _ :=
    fun start => .wide scanned fun _ _ => infixOperator_ensures scanned
  refine .bind (whitespace_ensures scanned) fun before _ leads => ?_
  refine .bind (sign _).stay.located fun operator _ isOperator => ?_
  obtain ⟨span, wide, symbol, same, isSymbol, stands⟩ := isOperator
  refine .bind (whitespace_ensures scanned) fun after _ follows => ?_
  refine .bind ((operand _).expecting _) fun found _ facts => ?_
  obtain ⟨value, final⟩ := found
  obtain ⟨⟨wideOperand, spanOperand⟩, obeys, notChain, isOperand⟩ := facts
  have strung : Clause.Strung start.position ⟨before, operator, after, value⟩ := by
    refine ⟨?_, ?_, ?_, ?_⟩
    · rw [span]
      exact solidFrom_le leads.2
    · rw [span]
      exact wide
    · rw [span, spanOperand]
      exact solidFrom_le follows.2
    · rw [spanOperand]
      exact wideOperand
  refine .pure ⟨⟨obeys, notChain, symbol, same, isSymbol, ?_⟩, isOperand, strung,
    congrArg Span.stop spanOperand⟩
  rw [span]
  exact stands

include reads

/-- A minus sign behind an operand is told from a negation, and another operand that may go before
operators is read up to its end. -/
theorem chainClause_closes {count : Nat} (enough : least ≤ count) {previous : Expression}
    {stop : Cursor} {found : Clause Reference Expression × Bool}
    (closes : input.Closes term previous start) (level : input.Level levels count start)
    (run : chainClause (application term) last infixOperator input start = .done found stop) :
    found.1.Subtracts (levels.headD 1) previous ∧
    (found.2 = false → input.Closes term found.1.expression stop) := by
  obtain ⟨_, first, runBefore, run⟩ := bind_done.mp run
  obtain ⟨levelFirst, -⟩ := whitespace_ensures scanned level _ _ runBefore
  obtain ⟨sign, between, runSign, run⟩ := bind_done.mp run
  obtain ⟨levelBetween, spanSign, -⟩ :=
    (infixOperator_ensures scanned).stay.located levelFirst _ _ runSign
  obtain ⟨_, behind, runAfter, run⟩ := bind_done.mp run
  obtain ⟨levelBehind, -⟩ := whitespace_ensures scanned levelBetween _ _ runAfter
  obtain ⟨⟨operand, final⟩, _, runOperand, made⟩ := bind_done.mp run
  obtain ⟨rfl, rfl⟩ := Outcome.done.inj made
  obtain ⟨alternative, member, read⟩ := choiceAfter_done (expecting_done runOperand)
  simp only [List.mem_cons, List.not_mem_nil, or_false] at member
  rcases member with rfl | rfl
  · obtain ⟨value, _, runValue, made⟩ := bind_done.mp read
    obtain ⟨same, rfl⟩ := Outcome.done.inj made
    obtain ⟨rfl, rfl⟩ := Prod.mk.inj same
    have runApplication := attempt_done.mp runValue
    obtain ⟨-, span, -, -, closes'⟩ :=
      application_ensures scanned terms enough levelBehind _ _ runApplication
    refine ⟨fun isMinus _ direct => ?_, fun _ => closes'⟩
    obtain ⟨head, _, runHead⟩ := application_done runApplication
    have runMinus : infixOperator input first = .done (.operator "-") between :=
      isMinus ▸ (located_done runSign).2
    have stays : behind.position.offset = between.position.offset := by
      rw [span, spanSign] at direct
      exact direct
    have close := minus_is_close scanned reads levelFirst.place levelBetween.place closes.refused
      runBefore runMinus runAfter stays runHead
    rw [Cursor.reference, level.indentation] at close
    rw [spanSign, closes.stops]
    exact close
  · obtain ⟨value, _, runValue, made⟩ := bind_done.mp read
    obtain ⟨same, rfl⟩ := Outcome.done.inj made
    obtain ⟨rfl, rfl⟩ := Prod.mk.inj same
    obtain ⟨-, -, isOpenEnded⟩ := lasts.items enough behind levelBehind _ _ runValue
    refine ⟨fun _ isOperand _ => ?_, fun final => Bool.noConfusion final⟩
    rw [ExpressionNode.isOpenEnded_of_isOperand isOperand] at isOpenEnded
    cases isOpenEnded

/-- The right operands of a chain are no chains, and applications but for the last one. They stand
in a row. -/
theorem clausesUpTo_ensures {count : Nat} (enough : least ≤ count) (bound : Nat) {start : Cursor}
    {previous : Expression} (closes : input.Closes term previous start) :
    Ensures input levels count count start (clausesUpTo (application term) last infixOperator bound)
      fun found stop =>
      (found = [] → stop = start) ∧ input.Follow (levels.headD 1) previous found ∧
        StrungFrom start.position found stop.position := by
  induction bound generalizing start previous with
  | zero =>
    intro level values stop run
    cases run
  | succ bound ih =>
    have one : Ensures input levels count count start
          (chainStep (application term) last infixOperator) _ :=
      .commitIf ((chainClause_ensures scanned terms lasts enough start).also fun level _ _ run =>
        chainClause_closes scanned terms reads lasts enough closes level run)
    refine .bind (one.optional (Nat.le_refl _)) fun found between facts => ?_
    rcases facts with ⟨⟨clause, final⟩, rfl, ⟨links, isOperand, strung, stops⟩, subtracts,
      closes'⟩ | ⟨rfl, rfl⟩
    · cases final with
      | true =>
        refine .pure ⟨fun none => absurd none (List.cons_ne_nil _ _),
          .cons links subtracts nofun .nil, .cons strung ?_⟩
        rw [stops]
        exact .nil _
      | false =>
        refine .map ((ih (closes' rfl)).imp fun rest _ facts =>
            ⟨fun none => absurd none (List.cons_ne_nil _ _), ?_, ?_⟩)
        · exact .cons links subtracts (fun _ => isOperand rfl) facts.2.1
        · refine .cons strung ?_
          rw [stops]
          exact facts.2.2
    · exact .pure ⟨fun _ => rfl, .nil, .nil _⟩

/-- Operands and operators are read one after the other. -/
theorem operatorChain_ensures {count : Nat} (enough : least ≤ count) :
    Ensures input levels count (count + 1) start
      (operatorChain (application term) last infixOperator) fun found stop =>
      found.span = ⟨start.position, stop.position⟩ ∧
        input.Chains (levels.headD 1) ⟨start.position, stop.position⟩ found.value := by
  have flat : Ensures input levels count (count + 1) start (application term >>= fun left =>
      clauses (application term) last infixOperator >>= fun following =>
        pure (left, following))
      fun found stop => ∀ layout : Layout, layout =
          (if input.source.crosses start.position stop.position then .splitAll else .joinAll) →
        input.Chains (levels.headD 1) ⟨start.position, stop.position⟩ ⟨found.1,
        found.2, layout⟩ := by
    have first : Ensures input levels count (count + 1) start (application term) _ :=
      .wide scanned fun more le => application_ensures scanned terms (Nat.le_trans enough le)
    refine .bind first fun left between facts => ?_
    obtain ⟨wide, span, obeys, isOperand, closes⟩ := facts
    have following : Ensures input levels (count + 1) (count + 1) between
        (clauses (application term) last infixOperator) _ :=
      clausesUpTo_ensures scanned terms reads lasts
        (Nat.le_succ_of_le enough) input.repetitionLimit closes
    refine .map (following.imp fun found stop facts layout told => ?_)
    obtain ⟨alone, follow, strung⟩ := facts
    refine ⟨told, fun none => ?_, obeys, isOperand, follow, ?_⟩
    · rw [alone none]
      exact span
    · have starts : left.span.start = start.position := by rw [span]
      refine ⟨starts, ?_, ?_⟩
      · rw [span]
        exact wide
      · rw [span]
        exact strung
  have chain : Ensures input levels count (count + 1) start
      (trackNewline _ >>= fun (found : (Expression × List (Clause Reference Expression)) × Bool) =>
        pure ⟨found.1.1, found.1.2, .ofCrossed found.2⟩)
      fun chain stop => input.Chains (levels.headD 1) ⟨start.position, stop.position⟩ chain :=
    .map (flat.trackNewline.imp fun found stop facts =>
        facts.2 _ (by rw [← facts.1, Layout.ofCrossed]))
  exact chain.located

/-- Chains of operators obey the laws; a single operand is what it is. -/
theorem chainExpression_builds :
    Builds input least (chainExpression term last) Expression.span .expression
      (·.node.isConditional = false) := by
  intro levels count start enough
  refine .bind (operatorChain_ensures scanned terms reads lasts enough) fun found stop facts => ?_
  obtain ⟨span, left, following, layout⟩ := found
  obtain ⟨rfl, chains⟩ := facts
  cases following with
  | nil =>
    exact .pure ⟨chains.alone rfl, chains.obeys,
      ExpressionNode.isConditional_of_isOperand chains.isOperand⟩
  | cons clause rest =>
    have follow := chains.follow
    have fits : ExpressionNode.Fits input (levels.headD 1) ⟨start.position, stop.position⟩
        (.chain left (clause :: rest) layout) := by
      refine ⟨chains.layout, ⟨List.cons_ne_nil _ _, chains.isOperand, follow.inner, ?_, ?_⟩,
        trivial, follow.subtracts, ?_, chains.strung, ?_⟩
      · exact fun one member => (follow.links one member).notChain
      · intro one member
        obtain ⟨symbol, same, isSymbol, -⟩ := (follow.links one member).symbol
        exact ⟨symbol, same, isSymbol⟩
      · intro one member
        obtain ⟨symbol, same, -, stands⟩ := (follow.links one member).symbol
        exact ⟨symbol, same, stands⟩
      · refine List.forall_mem_map.mpr (List.forall_mem_cons.mpr ⟨chains.obeys, ?_⟩)
        exact List.forall_mem_map.mpr fun one member => (follow.links one member).obeys
    exact .pure ⟨rfl, fits.obeys, rfl⟩

end Chains

/-! ## Conditionals -/

/-- Where an expression is read as a conditional, a condition and its body are read. -/
def EntersConditional (input : Input) (least : Nat) (expression : Parser Expression) : Prop :=
  ∀ cursor value stop, input.At cursor → least ≤ cursor.index →
    expression input cursor = .done value stop → value.node.isConditional = true →
    ∃ clause after, ifClause expression input cursor = .done clause after

section OpenEnded

variable (scanned : input.Scanned) {expression : Parser Expression}
  (inner : Builds input (least + 1) expression Expression.span .expression fun _ => True)

include scanned

/-- The word between two branches is read. -/
theorem elseKeyword_ensures :
    Ensures input levels least (least + 1) start elseKeyword fun _ _ => True := by
  refine .bind ((keyword_ensures scanned _).expecting _) fun _ _ _ => ?_
  exact (whitespace_ensures scanned).imp fun _ _ _ => trivial

include inner

/-- Conditions and their bodies obey the laws. -/
theorem ifClause_ensures {count : Nat} (enough : least ≤ count) (start : Cursor) :
    Ensures input levels count (count + 1) start (ifClause expression) fun clause _ =>
      ∀ inside ∈ clause.children, input.Obeys (levels.headD 1) (.expression inside) := by
  have expressions : ∀ start, Ensures input levels (count + 1) (count + 1) start expression _ :=
    inner.items (Nat.succ_le_succ enough)
  refine .bind (keyword_ensures scanned _).attempt fun _ _ _ => ?_
  refine .bind (whitespace_ensures scanned) fun _ _ _ => ?_
  refine .bind (expressions _) fun condition _ obeysCondition => ?_
  refine .bind (whitespace_ensures scanned) fun _ _ _ => ?_
  refine .bind (keyword_ensures scanned _).stay fun _ _ _ => ?_
  refine .bind (whitespace_ensures scanned) fun _ _ _ => ?_
  refine .bind (expressions _) fun body _ obeysBody => ?_
  refine .bind (whitespace_ensures scanned) fun _ _ _ => .pure ?_
  exact List.forall_mem_cons.mpr ⟨obeysCondition.1, List.forall_mem_singleton.mpr obeysBody.1⟩

/-- A conditional has no other one as its last branch, since a further condition would have been
read there. -/
theorem conditional_builds (enters : EntersConditional input (least + 1) expression) :
    Builds input least (conditional expression) Expression.span .expression
      (·.node.isOpenEnded = true) := by
  refine expressionOf_builds fun levels count start enough => ?_
  refine .bind (ifClause_ensures scanned inner enough start) fun first _ obeysFirst => ?_
  have further : ∀ more start, count + 1 ≤ more →
        Ensures input levels more (more + 1) start (elseIfClause expression) fun clause _ =>
        ∀ inside ∈ clause.value.children, input.Obeys (levels.headD 1) (.expression inside) := by
    intro more start le
    refine .attempt (.bind (elseKeyword_ensures scanned) fun comments _ _ => ?_)
    exact .map (ifClause_ensures scanned inner (by omega) _).stay
  refine .bind (Ensures.manyUntil further) fun rest between facts => ?_
  obtain ⟨obeysRest, refused⟩ := facts
  intro level value stop run
  obtain ⟨comments, behind, runElse, run⟩ := bind_done.mp run
  obtain ⟨final, _, runFinal, made⟩ := bind_done.mp run
  obtain ⟨rfl, rfl⟩ := Outcome.done.inj made
  obtain ⟨behindElse, -⟩ := elseKeyword_ensures scanned level comments behind runElse
  have entered := behindElse.mono (Nat.le_succ _)
  obtain ⟨level', obeysFinal, -⟩ :=
    inner.items (Nat.succ_le_succ enough) behind entered final _ runFinal
  -- where the last branch is a conditional, the loop before it would have read a further condition
  -- instead
  have notConditional : final.node.isConditional = false := by
    by_contra isConditional
    rw [Bool.not_eq_false] at isConditional
    have index := entered.index
    obtain ⟨clause, after, runClause⟩ :=
      enters behind final _ entered.place (by omega) runFinal isConditional
    refine refused (.pre comments clause) after
      (attempt_done.mpr (bind_done.mpr ⟨comments, behind, runElse, ?_⟩))
    exact bind_done.mpr ⟨clause, after, runClause, rfl⟩
  refine ⟨level', ⟨trivial, notConditional, trivial, trivial, trivial, trivial,
    List.forall_mem_map.mpr ?_⟩, rfl⟩
  refine List.forall_mem_append.mpr ⟨obeysFirst, List.forall_mem_append.mpr ⟨?_, ?_⟩⟩
  · exact List.forall_mem_flatMap.mpr obeysRest
  · exact List.forall_mem_singleton.mpr obeysFinal

/-! ## Functions -/

/-- Anonymous functions have an argument, and arguments stand past the reference. -/
theorem lambda_builds :
    Builds input least (lambda expression) Expression.span .expression
      fun found => found.node.isOpenEnded = true ∧ found.node.isConditional = false := by
  refine expressionOf_builds fun levels count start enough => ?_
  have written : Ensures input levels count (count + 1) start (expecting "an anonymous function"
      (token .backslash "'\\'") >>= fun _ => spaced patternTerm >>= fun arguments =>
        if arguments.isEmpty then fail ["an argument pattern"]
        else paddedArrow >>= fun arrow => expression >>= fun body =>
          pure (arguments, arrow.before ++ arrow.after, body))
      fun found _ => found.1 ≠ [] ∧ (∀ one ∈ found.1,
        input.Argues (levels.headD 1) Pattern.span .pattern (·.node.isTerm = true) one.value) ∧
        input.Obeys (levels.headD 1) (.expression found.2.2) := by
    refine .bind ((token_ensures scanned (by decide) _).expecting _) fun _ _ _ => ?_
    refine .bind ((patternTerm_builds scanned).spaced scanned (Nat.zero_le _))
      fun arguments _ argues => ?_
    split
    · exact .fail _
    · rename_i some
      refine .bind (padded_ensures scanned fun start => (token_ensures scanned (by decide) _).stay)
        fun arrow _ _ => ?_
      refine .map ((inner.items (Nat.succ_le_succ enough) _).imp fun body _ facts =>
          ⟨?_, argues, facts.1⟩)
      simpa using some
  refine .bind written.trackNewline fun found _ facts => ?_
  obtain ⟨⟨arguments, comments, body⟩, multiline⟩ := found
  obtain ⟨crossed, some, argues, obeys⟩ := facts
  have areTerms : ∀ one ∈ arguments, one.value.node.isTerm = true :=
    fun one member => (argues one member).shaped
  refine .pure ⟨⟨crossed, ⟨some, areTerms⟩, fun one member => (argues one member).past, trivial,
    trivial, trivial, ?_⟩, rfl, rfl⟩
  refine List.forall_mem_append.mpr ⟨List.forall_mem_map.mpr fun one member =>
      (argues one member).obeys, ?_⟩
  exact List.forall_mem_singleton.mpr obeys

/-! ## Case distinctions -/

/-- The pattern of a branch is aligned with the reference, and the branch obeys the laws. -/
theorem branch_ensures {count : Nat} (enough : least + 1 ≤ count)
    (leading : Comments) (start : Cursor) :
    Ensures input levels count count start (branch expression leading) fun found _ =>
      found.value.pattern.span.start.column = levels.headD 1 ∧
        input.Obeys (levels.headD 1) (.pattern found.value.pattern) ∧
        input.Obeys (levels.headD 1) (.expression found.value.body) := by
  have head : Ensures input levels count count start branchHead fun found _ =>
      found.2.1.span.start.column = levels.headD 1 ∧
        input.Obeys (levels.headD 1) (.pattern found.2.1) := by
    refine .attempt (.bind (whitespace_ensures scanned) fun comments _ _ => ?_)
    refine .bind .aligned fun _ place facts => ?_
    obtain ⟨rfl, aligned⟩ := facts
    refine .bind (pattern_builds scanned levels count place (Nat.zero_le _)).stay
      fun pattern _ facts => ?_
    obtain ⟨span, obeys, -⟩ := facts
    refine .map ((padded_ensures scanned fun start =>
        (token_ensures scanned (by decide) _).stay).imp fun _ _ _ => ?_)
    refine ⟨?_, obeys⟩
    show pattern.span.start.column = levels.headD 1
    rw [span]
    exact aligned
  refine .bind head fun found _ facts => ?_
  obtain ⟨comments, pattern, arrow⟩ := found
  refine .bind (inner.items enough _) fun body _ obeys => ?_
  exact .position (.pure ⟨facts.1, facts.2, obeys.1⟩)

/-- Case distinctions have a branch, and their branches are aligned. -/
theorem caseDistinction_builds :
    Builds input least (caseDistinction expression) Expression.span .expression
      fun found => found.node.isOpenEnded = true ∧ found.node.isConditional = false := by
  refine expressionOf_builds fun levels count start enough => ?_
  have deeper := Nat.succ_le_succ enough
  refine .bind (keyword_ensures scanned _).attempt fun word between facts => ?_
  obtain ⟨isWord, foundWord, wordStarts, wordStops⟩ := facts
  refine .bind (padded_ensures scanned fun start => (inner levels _ start deeper).stay).trackNewline
    fun found behind facts => ?_
  obtain ⟨subject, multiline⟩ := found
  obtain ⟨crossed, first, last, ⟨span, obeys, -⟩, -, same, -⟩ := facts
  refine .bind (keyword_ensures scanned _).stay fun separator _ facts => ?_
  obtain ⟨isSeparator, foundSeparator, separatorStarts, -⟩ := facts
  refine .bind (whitespace_ensures scanned) fun leading place _ => ?_
  have branches : Ensures input levels (count + 1) (count + 1) place (withReference
      (branch expression leading >>= fun first => many (branch expression []) >>= fun rest =>
        pure (first :: rest))) fun found _ => found ≠ [] ∧ ∀ one ∈ found,
          one.value.pattern.span.start.column = place.position.column ∧
            input.Obeys place.position.column (.pattern one.value.pattern) ∧
            input.Obeys place.position.column (.expression one.value.body) := by
    refine .withReference (.bind (branch_ensures scanned inner deeper leading _)
        fun one _ holds => ?_)
    refine .map ((Ensures.many fun start => branch_ensures scanned inner deeper [] start).imp
        fun rest _ others => ?_)
    exact ⟨List.cons_ne_nil _ _, List.forall_mem_cons.mpr ⟨holds, others⟩⟩
  refine .map (branches.imp fun found stop facts => ?_)
  obtain ⟨some, each⟩ := facts
  have reference := caseReference_eq some fun one member => (each one member).1
  refine ⟨⟨⟨word, separator, foundWord, wordStarts, isWord, ?_, isSeparator, ?_⟩, some, ?_, trivial,
    trivial, trivial, ?_⟩, rfl, rfl⟩
  · rw [span, ← same]
    exact foundSeparator
  · rw [← wordStops, separatorStarts]
    exact crossed
  · exact fun one member => (each one member).1.trans reference.symm
  · refine List.forall_mem_cons.mpr ⟨obeys, List.forall_mem_flatMap.mpr fun one member => ?_⟩
    obtain ⟨-, obeysPattern, obeysBody⟩ := each one member
    rw [reference]
    exact List.forall_mem_cons.mpr ⟨obeysPattern, List.forall_mem_singleton.mpr obeysBody⟩

/-! ## Declarations -/

omit inner in
/-- What is defined begins where its definition does; only a name or an operator has arguments, past
the reference. -/
theorem definitionHead_ensures :
    Ensures input levels least (least + 1) start definitionHead fun found _ =>
      found.1.span.start = start.position ∧ input.Obeys (levels.headD 1) (.pattern found.1) ∧
        (found.2 ≠ [] → takesArguments found.1.node = true) ∧ ∀ one ∈ found.2,
        input.Argues (levels.headD 1) Pattern.span .pattern (·.node.isTerm = true) one.value := by
  have symbol : Builds input least (patternOf do return .operator (← parenthesizedOperator))
        Pattern.span .pattern (takesArguments ·.node) := by
    refine patternOf_builds fun levels count start enough => ?_
    refine .map ((parenthesizedOperator_ensures scanned).imp fun _ _ stands => ?_)
    exact ⟨⟨trivial, trivial, stands, List.forall_mem_nil _⟩, rfl⟩
  have defined : Builds input least
        (choice [attempt patternTerm, patternOf do return .operator (← parenthesizedOperator)])
        Pattern.span .pattern fun _ => True := by
    refine .choice ?_
    simp only [List.forall_mem_cons, List.not_mem_nil, false_imp_iff, implies_true, and_true]
    exact ⟨(patternTerm_builds scanned).attempt.imp fun _ _ => trivial,
      symbol.imp fun _ _ => trivial⟩
  rw [definitionHead_eq]
  refine .expecting _ (.bind (defined levels least start (Nat.le_refl _)) fun pattern _ facts => ?_)
  obtain ⟨span, obeys, -⟩ := facts
  have starts : pattern.span.start = start.position := by rw [span]
  split
  · rename_i takes
    refine .map (((patternTerm_builds scanned).spaced scanned (Nat.zero_le _)).imp
        fun arguments _ argues => ?_)
    exact ⟨starts, obeys, fun _ => takes, argues⟩
  · exact .pure ⟨starts, obeys, fun some => absurd rfl some, List.forall_mem_nil _⟩

/-- Definitions obey the laws. -/
theorem definition_ensures {count : Nat} (enough : least ≤ count) (start : Cursor) :
    Ensures input levels count (count + 1) start (definition expression) fun found _ =>
      ∀ reference, input.Obeys reference (.definition found) := by
  refine .withReference (.bind (definitionHead_ensures scanned) fun found _ facts => ?_)
  obtain ⟨defined, arguments⟩ := found
  obtain ⟨starts, obeys, takes, argues⟩ := facts
  refine .bind (padded_ensures scanned fun start => (token_ensures scanned (by decide) _).stay)
    fun equals _ _ => ?_
  refine .map ((inner.items (Nat.succ_le_succ enough) _).imp fun body _ facts reference => ?_)
  have column : defined.span.start.column = start.position.column := by rw [starts]
  rw [List.headD_cons, ← column] at obeys argues facts
  have areTerms : ∀ one ∈ arguments, one.value.node.isTerm = true :=
    fun one member => (argues one member).shaped
  refine .intro ⟨trivial, ⟨takes, areTerms⟩, fun one member => (argues one member).past, trivial,
    trivial, trivial⟩ ?_
  refine List.forall_mem_cons.mpr
    ⟨obeys, List.forall_mem_append.mpr ⟨?_, List.forall_mem_singleton.mpr facts.1⟩⟩
  exact List.forall_mem_map.mpr fun one member => (argues one member).obeys

omit inner in
/-- The type of a signature obeys the laws. -/
theorem signature_ensures :
    Ensures input levels least (least + 1) start signature fun found _ =>
      input.Obeys (levels.headD 1) (.type found.type.value) := by
  have head : Ensures input levels least (least + 1) start signatureHead fun _ _ => True := by
    have name : Ensures input levels least (least + 1) start
        (choice [do return AnnotatedName.value (← lowerName),
          do return .operator (← parenthesizedOperator)])
        fun _ _ => True := by
      refine .choice ?_
      simp only [List.forall_mem_cons, List.not_mem_nil, false_imp_iff, implies_true, and_true]
      exact ⟨.map ((lowerName_ensures scanned).imp fun _ _ _ => trivial),
        .map ((parenthesizedOperator_ensures scanned).imp fun _ _ _ => trivial)⟩
    refine .attempt (.bind name fun _ _ _ => .map ?_)
    exact (padded_ensures scanned fun start => (token_ensures scanned (by decide) _).stay).imp
      fun _ _ _ => trivial
  refine .bind head fun found _ _ => ?_
  obtain ⟨name, colon⟩ := found
  exact .map (((typeExpression_builds scanned).items (Nat.zero_le _) _).imp
      fun _ _ facts => facts.1)

/-- Declarations obey the laws. -/
theorem declaration_ensures {count : Nat} (enough : least ≤ count) (start : Cursor) :
    Ensures input levels count (count + 1) start (declaration expression) fun found _ =>
      ∀ placed ∈ found.inside (levels.headD 1), input.Obeys placed.reference placed.part := by
  refine .choice ?_
  simp only [List.forall_mem_cons, List.not_mem_nil, false_imp_iff, implies_true, and_true]
  constructor
  · exact .map ((signature_ensures scanned).imp fun _ _ obeys =>
        List.forall_mem_singleton.mpr obeys)
  · exact .map ((definition_ensures scanned inner enough start).imp fun _ _ obeys =>
      List.forall_mem_singleton.mpr (obeys _))

/-! ## Local declarations -/

/-- A declaration in a `let` that is aligned with the reference and obeys the laws, or a comment. -/
def Input.Aligned (input : Input) (reference : Nat)
    (entry : Located (LetEntry Expression)) : Prop :=
  (entry.value.isDeclaration = true → entry.span.start.column = reference) ∧
    ∀ placed ∈ entry.value.inside reference, input.Obeys placed.reference placed.part

omit inner in
/-- Comments in a `let` are no declarations. -/
theorem letComments_ensures :
    Ensures input levels least least start letComments fun found _ =>
      ∀ entry ∈ found, ∀ reference, input.Aligned reference entry := by
  refine .map ((whitespace_ensures scanned).located.imp fun comments _ _ =>
      List.forall_mem_map.mpr fun _ _ _ => ?_)
  exact ⟨fun isDeclaration => Bool.noConfusion isDeclaration, List.forall_mem_nil _⟩

/-- A declaration in a `let` is aligned with the reference. -/
theorem letBlock_ensures {count : Nat} (enough : least ≤ count) (start : Cursor) :
    Ensures input levels count count start (letBlock expression) fun found _ =>
      (∃ entry ∈ found, entry.value.isDeclaration = true) ∧
        ∀ entry ∈ found, input.Aligned (levels.headD 1) entry := by
  refine .bind .aligned fun _ place facts => ?_
  obtain ⟨rfl, aligned⟩ := facts
  have entry : Ensures input levels count (count + 1) place
      (located (declaration expression) >>= fun found => pure (LetEntry.declaration found))
      fun found _ => found.isDeclaration = true ∧
        ∀ placed ∈ found.inside (levels.headD 1), input.Obeys placed.reference placed.part :=
    .map ((declaration_ensures scanned inner enough place).located.imp fun _ _ facts =>
        ⟨rfl, facts.2⟩)
  refine .bind entry.located.stay fun first _ facts => ?_
  obtain ⟨span, isDeclaration, obeys⟩ := facts
  refine .map ((letComments_ensures scanned).imp fun comments _ others => ?_)
  refine ⟨⟨first, .head _, isDeclaration⟩, List.forall_mem_cons.mpr ⟨⟨fun _ => ?_, obeys⟩, ?_⟩⟩
  · rw [span]
    exact aligned
  · exact fun comment member => others comment member _

/-- A `let` has a declaration, and its declarations are aligned. -/
theorem letExpression_builds :
    Builds input least (letExpression expression) Expression.span .expression
      fun found => found.node.isOpenEnded = true ∧ found.node.isConditional = false := by
  refine expressionOf_builds fun levels count start enough => ?_
  have deeper := Nat.le_succ_of_le enough
  refine .bind (keyword_ensures scanned _).attempt fun _ _ _ => ?_
  refine .bind (letComments_ensures scanned) fun leading place comments => ?_
  have blocks : Ensures input levels (count + 1) (count + 1) place (withReference
      (letBlock expression >>= fun first => many (letBlock expression) >>= fun rest =>
        pure (first :: rest))) fun found _ => (∃ entry ∈ found.flatten, entry.value.isDeclaration =
          true) ∧ ∀ entry ∈ found.flatten, input.Aligned place.position.column entry := by
    refine .withReference (.bind (letBlock_ensures scanned inner deeper _) fun first _ facts => ?_)
    obtain ⟨⟨entry, inFirst, isDeclaration⟩, aligned⟩ := facts
    refine .map ((Ensures.many fun start => letBlock_ensures scanned inner deeper start).imp
        fun rest _ others => ?_)
    refine ⟨⟨entry, List.mem_append_left _ inFirst, isDeclaration⟩,
      List.forall_mem_append.mpr ⟨aligned, ?_⟩⟩
    exact List.forall_mem_flatten.mpr fun block member => (others block member).2
  refine .bind blocks fun found _ facts => ?_
  obtain ⟨⟨entry, inFound, isDeclaration⟩, aligned⟩ := facts
  refine .bind (keyword_ensures scanned _).stay fun _ _ _ => ?_
  refine .bind (whitespace_ensures scanned) fun bodyComments _ _ => ?_
  refine .map ((inner.items (Nat.succ_le_succ enough) _).imp fun body stop facts => ?_)
  -- comments before the first declaration are entries too, but are not measured
  have some : ∃ entry ∈ leading ++ found.flatten, entry.value.isDeclaration = true :=
    ⟨entry, List.mem_append_right _ inFound, isDeclaration⟩
  have each : ∀ entry ∈ leading ++ found.flatten, input.Aligned place.position.column entry :=
    List.forall_mem_append.mpr ⟨fun entry member => comments entry member _, aligned⟩
  have reference := letReference_eq some fun entry member => (each entry member).1
  refine ⟨⟨trivial, some, ?_, trivial, trivial, trivial, ?_⟩, rfl, rfl⟩
  · intro entry member declares
    rw [reference]
    exact (each entry member).1 declares
  · refine List.forall_mem_append.mpr ⟨List.forall_mem_flatMap.mpr fun entry member => ?_, ?_⟩
    · rw [reference]
      exact (each entry member).2
    · exact List.forall_mem_singleton.mpr facts.1

end OpenEnded

/-! ## The knot -/

/-- What is known of the expressions and terms that begin behind so many tokens. -/
structure Input.Knot (input : Input) (least : Nat) : Prop where
  /-- Expressions obey the laws. -/
  expressions : Builds input least expression Expression.span .expression fun _ => True
  /-- Terms obey the laws and can be arguments. -/
  terms : Builds input least term Expression.span .expression (·.IsArgument input.tokens.toList)
  /-- Conditionals begin with a condition. -/
  enters : EntersConditional input least expression

section Knot

variable (scanned : input.Scanned)

include scanned

/-- The expressions that extend as far right as possible obey the laws, if those inside do. -/
theorem openEnded_builds (inner : input.Knot (least + 1)) :
    ∀ alternative ∈ openEnded expression,
      Builds input least alternative Expression.span .expression (·.node.isOpenEnded = true) := by
  simp only [openEnded, List.forall_mem_cons, List.not_mem_nil, false_imp_iff,
    implies_true, and_true]
  exact ⟨(letExpression_builds scanned inner.expressions).imp fun _ shape => shape.1,
    (caseDistinction_builds scanned inner.expressions).imp fun _ shape => shape.1,
    conditional_builds scanned inner.expressions inner.enters,
    (lambda_builds scanned inner.expressions).imp fun _ shape => shape.1⟩

/-- A conditional is read by the rule for conditionals, since no other one gives any. -/
theorem expression_entersConditional (inner : input.Knot (least + 1)) (terms : Builds input least
      term Expression.span .expression (·.IsArgument input.tokens.toList)) :
    EntersConditional input least expression := by
  intro cursor value stop place enough run isConditional
  rw [expression_eq scanned place] at run
  obtain ⟨alternative, member, read⟩ := choiceAfter_done (expecting_done run)
  have excluded : ¬ Builds input least alternative Expression.span .expression
        (·.node.isConditional = false) := by
    intro builds
    have other : value.node.isConditional = false :=
      (builds _ _ cursor enough ⟨place, rfl, Nat.le_refl _⟩ value stop read).2.2.2
    exact absurd isConditional (by simp [other])
  have lasts := openEnded_builds scanned inner
  simp only [openEnded, List.cons_append, List.nil_append, List.mem_cons, List.not_mem_nil,
    or_false] at member
  rcases member with rfl | rfl | rfl | rfl | rfl
  · exact absurd ((letExpression_builds scanned inner.expressions).imp fun _ shape =>
        shape.2) excluded
  · exact absurd ((caseDistinction_builds scanned inner.expressions).imp fun _ shape =>
        shape.2) excluded
  · obtain ⟨node, _, readNode, -⟩ := bind_done.mp read
    obtain ⟨clause, after, readClause, -⟩ := bind_done.mp (located_done readNode).2
    exact ⟨clause, after, readClause⟩
  · exact absurd ((lambda_builds scanned inner.expressions).imp fun _ shape => shape.2) excluded
  · exact absurd (chainExpression_builds scanned terms scanned.readsNegation (.choice lasts))
      excluded

/-- What is known of what begins behind one token more gives what is known here. -/
theorem Input.Knot.step (inner : input.Knot (least + 1)) : input.Knot least := by
  have terms :
      Builds input least term Expression.span .expression (·.IsArgument input.tokens.toList) :=
    (termOver_builds scanned inner.expressions inner.terms).congr fun cursor place =>
      term_eq scanned place
  have lasts := openEnded_builds scanned inner
  have chain := chainExpression_builds scanned terms scanned.readsNegation (.choice lasts)
  refine ⟨?_, terms, expression_entersConditional scanned inner terms⟩
  refine Builds.congr (.expecting _
      (.choice (List.forall_mem_append.mpr ⟨?_, List.forall_mem_singleton.mpr ?_⟩)))
    fun cursor place => expression_eq scanned place
  · exact fun alternative member => (lasts alternative member).imp fun _ _ => trivial
  · exact chain.imp fun _ _ => trivial

/-- Expressions and terms obey the laws wherever they begin. -/
theorem Input.Scanned.knot (least : Nat) : input.Knot least := by
  -- induction on the tokens that are left; behind the last one nothing begins
  induction left : input.tokens.size + 1 - least generalizing least with
  | zero =>
    have nowhere : ∀ {α : Type} {parser : Parser α} {span : α → Span} {part : α → Part} {shape : α →
          Prop}, Builds input least parser span part shape := by
      intro α parser span part shape levels count start enough level
      obtain ⟨_, _, _, stands⟩ := level.place
      have inside := stands.index_lt
      have index := level.index
      omega
    refine ⟨nowhere, nowhere, fun cursor value stop place index => ?_⟩
    obtain ⟨_, _, _, stands⟩ := place
    have inside := stands.index_lt
    omega
  | succ left ih => exact (ih (least + 1) (by omega)).step scanned

end Knot

end Marginalia
