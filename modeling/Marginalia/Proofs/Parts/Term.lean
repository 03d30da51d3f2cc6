import Marginalia.Grammar.Expression
import Marginalia.Proofs.Parts.Pattern
import Marginalia.Proofs.Writing.Term

/-!
# Terms obey the laws

One statement for each rule that reads a term, over what is known of the parsers of the expressions
and terms inside it. A term that may not stand behind a minus sign begins with a symbol, and a term
that no field may be read from has none behind it.
-/

namespace Marginalia

open Marginalia.Parser Marginalia.Grammar

variable {input : Input} {levels : List Nat} {least : Nat} {start : Cursor}

/-! ## Expressions -/

/-- The node of an expression with a span obeys the laws, as does what is inside it. -/
structure ExpressionNode.Fits (input : Input) (reference : Nat) (span : Span)
    (node : ExpressionNode Expression) : Prop where
  /-- Its layout flags tell the line breaks of the source. -/
  flagged : Expression.Flagged input.source input.tokens.toList ⟨span, node⟩
  /-- The node is in normal form. -/
  canonical : node.Canonical
  /-- It keeps to the offside rule. -/
  offside : node.Offside reference
  /-- Its minus signs are told. -/
  signed : Expression.Signed reference ⟨span, node⟩
  /-- Its words stand in the source. -/
  echoes : Expression.Echoes input.source input.tokens.toList ⟨span, node⟩
  /-- Its operands and operators stand in a row. -/
  strung : Expression.Strung ⟨span, node⟩
  /-- What is inside obeys the laws. -/
  inside : ∀ placed ∈ Expression.inside reference ⟨span, node⟩,
      input.Obeys placed.reference placed.part

/-- An expression obeys the laws if its node does. -/
theorem ExpressionNode.Fits.obeys {reference : Nat} {span : Span} {node : ExpressionNode Expression}
    (fits : node.Fits input reference span) : input.Obeys reference (.expression ⟨span, node⟩) :=
  .intro ⟨fits.flagged, fits.canonical, fits.offside, fits.signed, fits.echoes,
    fits.strung⟩ fits.inside

/-- A located node is an expression. -/
theorem expressionOf_builds {node : Parser (ExpressionNode Expression)} {shape : Expression → Prop}
      (ensures : ∀ levels count start, least ≤ count →
      Ensures input levels count (count + 1) start node fun found stop =>
      found.Fits input (levels.headD 1) ⟨start.position, stop.position⟩ ∧
        shape ⟨⟨start.position, stop.position⟩, found⟩) :
    Builds input least (expressionOf node) Expression.span .expression shape := by
  intro levels count start enough
  refine .map ((ensures levels count start enough).located.imp fun found stop facts => ?_)
  obtain ⟨span, fits, shaped⟩ := facts
  rw [← span] at fits shaped
  exact ⟨span, fits.obeys, shaped⟩

/-- What may stand behind a minus sign is no negation. -/
theorem ExpressionNode.isNegation_of_isNegatable {node : ExpressionNode Expression}
    (isNegatable : node.isNegatable = true) : node.isNegation = false := by
  cases node <;> first | rfl | cases isNegatable

/-- What is known of an expression that can be an argument. -/
structure Expression.IsArgument (tokens : List Token) (expression : Expression) : Prop where
  /-- It is a term. -/
  isTerm : expression.node.isTerm = true
  /-- It begins with a symbol if it may not stand behind a minus sign. -/
  begins : expression.node.isNegatable = true ∨ SymbolAt tokens expression.span.start
  /-- It begins with a minus sign if it is a negation. -/
  negates : expression.node.isNegation = true → MinusAt tokens expression.span.start

/-- What may stand behind a minus sign is a term. -/
theorem Expression.IsArgument.of_negatable {tokens : List Token} {expression : Expression}
    (isNegatable : expression.node.isNegatable = true) : expression.IsArgument tokens := by
  refine ⟨ExpressionNode.isTerm_of_isNegatable isNegatable, .inl isNegatable, fun isNegation => ?_⟩
  rw [ExpressionNode.isNegation_of_isNegatable isNegatable] at isNegation
  cases isNegation

/-! ## Terms of a few tokens -/

section Tokens

variable (scanned : input.Scanned)

include scanned

/-- Literals obey the laws. -/
theorem literalTerm_builds :
    Builds input least literalTerm Expression.span .expression (·.node.isNegatable = true) := by
  refine expressionOf_builds fun levels count start enough => ?_
  refine .map ((literal_ensures scanned).imp fun _ _ spells => ?_)
  exact ⟨⟨trivial, trivial, trivial, trivial, spells, trivial, List.forall_mem_nil _⟩, rfl⟩

/-- The function that reads a field begins with a dot. -/
theorem accessorTerm_builds :
    Builds input least accessorTerm Expression.span .expression
      (·.IsArgument input.tokens.toList) := by
  refine .attempt (expressionOf_builds fun levels count start enough => ?_)
  refine .bind (token_ensures scanned (by decide) _) fun dot _ facts => ?_
  obtain ⟨isDot, found, starts, stops⟩ := facts
  have isMark : dot.kind.mark? = some "." := by rw [isDot]; rfl
  have before := scanned.verbatim_of_mark (List.mem_of_find?_eq_some found) isMark
  rw [starts, ← stops] at before
  refine .map ((lowerName_verbatim scanned).stay.imp fun _ _ behind => ?_)
  exact ⟨⟨trivial, trivial, trivial, trivial, before.append behind, trivial, List.forall_mem_nil _⟩,
    rfl, .inr ⟨dot, found, starts, .inr isDot⟩, nofun⟩

omit scanned in
/-- A shader block without its carriage returns is its body without them, between the two marks. -/
theorem Text.filter_shader {lexeme : Text} (shape : Scan.Shape .shader lexeme) :
    lexeme.filter (· != carriageReturn) =
      ofString "[glsl|" ++ (lexeme.trimEnds 6 2).filter (· != carriageReturn) ++ ofString "|]" := by
  obtain ⟨body, rfl⟩ := shape
  have inside := trimEnds_append (ofString Scan.shaderOpening) body (ofString Scan.shaderClosing)
  rw [show (ofString Scan.shaderOpening).length = 6 from rfl,
    show (ofString Scan.shaderClosing).length = 2 from rfl] at inside
  rw [inside, List.filter_append, List.filter_append, List.append_assoc]
  rfl

/-- Blocks of shader source obey the laws. -/
theorem shaderTerm_builds :
    Builds input least shaderTerm Expression.span .expression (·.node.isNegatable = true) := by
  refine expressionOf_builds fun levels count start enough => ?_
  refine .bind (token_ensures scanned (by decide) _) fun block stop facts => ?_
  obtain ⟨isShader, found, starts, stops⟩ := facts
  have member := List.mem_of_find?_eq_some found
  have shape := Scan.Divides.shape scanned block member
  rw [isShader] at shape
  have stands : input.source.over ⟨start.position, stop.position⟩ = block.lexeme := by
    rw [← starts, stops]
    exact scanned.over_token member
  refine .pure ⟨⟨trivial, trivial, trivial, trivial, ?_, trivial, List.forall_mem_nil _⟩, rfl⟩
  show (input.source.over ⟨start.position, stop.position⟩).filter _ = _
  rw [stands]
  exact Text.filter_shader shape

/-- Operators in parentheses obey the laws. -/
theorem operatorTerm_builds :
    Builds input least operatorTerm Expression.span .expression (·.node.isTarget = true) := by
  refine .attempt (expressionOf_builds fun levels count start enough => ?_)
  refine .map ((parenthesizedOperator_ensures scanned).imp fun _ _ stands => ?_)
  refine ⟨⟨trivial, ?_, trivial, trivial, stands, trivial, List.forall_mem_nil _⟩, rfl⟩
  simp [ExpressionNode.Canonical]

/-- Commas go on what stands directly before them. -/
theorem commas_ensures :
    Ensures input levels least least start (many (token .comma "','")) fun commas stop =>
      ∀ origin text, input.Verbatim origin start.position text →
      input.Verbatim origin stop.position (text ++ List.replicate commas.length (.ofChar ',')) := by
  have one : ∀ start, Ensures input levels least least start (token .comma "','") fun _ stop =>
      input.Verbatim start.position stop.position "," :=
        fun start => (mark_verbatim scanned rfl _).stay
  refine .manyChain one (motive := fun start commas stop => ∀ origin text,
    input.Verbatim origin start.position text → input.Verbatim origin stop.position
      (text ++ List.replicate commas.length (.ofChar ','))) ?_ ?_
  · intro cursor origin text before
    rw [List.length_nil, List.replicate_zero, List.append_nil]
    exact before
  · intro start comma between commas stop here further origin text before
    have goesOn := further origin _ (before.append here)
    rwa [List.append_assoc] at goesOn

/-- The function that makes a tuple has two arguments at least. -/
theorem tupleFunctionTerm_builds :
    Builds input least tupleFunctionTerm Expression.span .expression (·.node.isTarget = true) := by
  refine .attempt (expressionOf_builds fun levels count start enough => ?_)
  refine .bind (mark_verbatim scanned rfl _) fun _ _ opens => ?_
  refine .bind (mark_verbatim scanned rfl _).stay fun _ _ comma => .bind (commas_ensures scanned)
    fun further _ commas => ?_
  refine .bind (mark_verbatim scanned rfl _).stay fun _ _ closes => ?_
  have stands := (commas _ _ (opens.append comma)).append closes
  exact .pure ⟨⟨trivial, Nat.le_add_left 2 _, trivial, trivial, stands, trivial,
    List.forall_mem_nil _⟩, rfl⟩

/-! ## Names and fields -/

/-- What is ensured of a term that fields may follow: where it is no target, no field does. -/
def Followed (input : Input) (levels : List Nat) (start : Cursor) (expression : Expression)
    (stop : Cursor) : Prop :=
  (expression.span = ⟨start.position, stop.position⟩ ∧
      input.Obeys (levels.headD 1) (.expression expression) ∧ expression.node.isNegatable = true) ∧
    (expression.node.isTarget = true ∨
      ∀ field after, dottedLowerName input stop ≠ .done field after)

omit scanned in
/-- The node of a name is a literal or no unqualified `True` or `False`. -/
theorem referenceNode_fits {reference : Reference} (column : Nat) {span : Span}
    (stands : input.Verbatim span.start span.stop reference.spelling) :
    (referenceNode reference).Fits input column span ∧
    (referenceNode reference).isNegatable = true := by
  unfold referenceNode
  split
  · rename_i isTrue
    subst isTrue
    exact ⟨⟨trivial, trivial, trivial, trivial, fun _ => stands.over_eq, trivial,
      List.forall_mem_nil _⟩, rfl⟩
  · split
    · rename_i isFalse
      subst isFalse
      exact ⟨⟨trivial, trivial, trivial, trivial, fun _ => stands.over_eq, trivial,
        List.forall_mem_nil _⟩, rfl⟩
    · rename_i notTrue notFalse
      exact ⟨⟨trivial, ⟨notTrue, notFalse⟩, trivial, trivial, stands, trivial,
        List.forall_mem_nil _⟩, rfl⟩

/-- A name is followed by fields only if it is no constructor. -/
theorem nameTerm_ensures :
    Ensures input levels least (least + 1) start nameTerm (Followed input levels start) := by
  have node : Ensures input levels least (least + 1) start
        (nameReference >>= fun found => pure (referenceNode found)) fun node stop => ∃ found,
        node = referenceNode found ∧ input.Verbatim start.position stop.position found.spelling ∧
        (node.isTarget = true ∨ ∀ field after, dottedLowerName input stop ≠ .done field after) := by
    refine .map ((nameReference_ensures scanned).imp fun found stop facts =>
        ⟨found, rfl, facts.1, ?_⟩)
    rcases facts.2 with ⟨name, rfl⟩ | ⟨-, refused⟩
    · exact .inl (by simp [referenceNode, ExpressionNode.isTarget])
    · exact .inr refused
  refine .map (node.located.imp fun value stop facts => ?_)
  obtain ⟨span, found, same, stands, follows⟩ := facts
  have fitting :
      (referenceNode found).Fits input (levels.headD 1) ⟨start.position, stop.position⟩ ∧ _ :=
    referenceNode_fits _ stands
  rw [← same, ← span] at fitting
  obtain ⟨fits, isNegatable⟩ := fitting
  exact ⟨⟨span, fits.obeys, isNegatable⟩, follows⟩

/-- The fields behind a target: read from a record at the origin, they give a target that obeys the
laws. -/
def Input.Accesses (input : Input) (reference : Nat) (origin : Position) (start : Cursor)
    (fields : List (Text × Position)) (stop : Cursor) : Prop :=
  (fields = [] → stop = start) ∧ ∀ record : Expression,
    record.span = ⟨origin, start.position⟩ → origin.offset ≤ start.position.offset →
    input.Obeys reference (.expression record) → record.node.isTarget = true →
    let last : Expression :=
      fields.foldl (fun record access => ⟨⟨origin, access.2⟩, .access record access.1⟩) record
    last.span = ⟨origin, stop.position⟩ ∧ input.Obeys reference (.expression last) ∧
      last.node.isTarget = true

/-- Fields are read from a target one after the other. -/
theorem fieldAccesses_ensures (origin : Position) :
    Ensures input levels least least start (many fieldAccess)
      (input.Accesses (levels.headD 1) origin start) := by
  have one : ∀ start, Ensures input levels least least start fieldAccess fun access stop =>
      access.2 = stop.position ∧ input.Verbatim start.position stop.position ("." ++ access.1) := by
    intro start
    refine .bind (dottedLowerName_ensures scanned).stay fun field _ stands => ?_
    exact .position (.pure ⟨rfl, stands⟩)
  refine .manyChain one ?_ ?_
  · exact fun cursor => ⟨fun _ => rfl, fun record span le obeys isTarget => ⟨span, obeys, isTarget⟩⟩
  · intro start access between rest stop here further
    obtain ⟨stops, stands⟩ := here
    refine ⟨fun none => absurd none (List.cons_ne_nil _ _), fun record span le obeys isTarget => ?_⟩
    have echoes : Expression.Echoes input.source input.tokens.toList ⟨⟨origin, access.2⟩,
          .access record access.1⟩ := by
      refine ⟨by rw [span], ?_, ?_⟩
      · rw [span, stops]
        exact stands
      · rw [span, stops, List.append_assoc, ← stands.over_eq, input.source.over_append le stands.le]
    have fits :
        ExpressionNode.Fits input (levels.headD 1) ⟨origin, access.2⟩ (.access record access.1) :=
      ⟨trivial, isTarget, trivial, trivial, echoes, trivial, List.forall_mem_singleton.mpr obeys⟩
    exact further.2 _ (congrArg (Span.mk origin) stops) (Nat.le_trans le stands.le) fits.obeys rfl

/-- Terms and the fields that are read from them obey the laws. -/
theorem accessible_builds {target : Parser Expression} (targets : ∀ levels count start, least ≤
      count → Ensures input levels count (count + 1) start target (Followed input levels start)) :
    Builds input least (accessible target) Expression.span .expression
      (·.node.isNegatable = true) := by
  intro levels count start enough
  have target : Ensures input levels count (count + 1) start target _ :=
    .wide scanned fun more le => targets levels more start (Nat.le_trans enough le)
  refine .position (.bind target fun record between followed => ?_)
  obtain ⟨wide, ⟨span, obeys, isNegatable⟩, follows⟩ := followed
  intro level value stop run
  obtain ⟨fields, after, runFields, made⟩ := bind_done.mp run
  obtain ⟨rfl, rfl⟩ := Outcome.done.inj made
  obtain ⟨level', stays, goesOn⟩ :=
    fieldAccesses_ensures scanned start.position level fields after runFields
  refine ⟨level', ?_⟩
  rcases follows with isTarget | refused
  · obtain ⟨span', obeys', isTarget'⟩ := goesOn record span (Nat.le_of_lt wide) obeys isTarget
    exact ⟨span', obeys', ExpressionNode.isNegatable_of_isTarget isTarget'⟩
  · -- no field is read here, so the term is all there is
    have none : fields = [] := many_eq_nil (fun field after same => ?_) runFields
    · subst none
      rw [stays rfl]
      exact ⟨span, obeys, isNegatable⟩
    · obtain ⟨name, _, runName, -⟩ := bind_done.mp same
      exact refused name _ runName

end Tokens

/-! ## Terms with expressions inside -/

section Inside

variable (scanned : input.Scanned) {expression term : Parser Expression}
  (inner : Builds input (least + 1) expression Expression.span .expression fun _ => True)

include scanned

/-- Behind a minus sign stands no other one, and no function that reads a field. -/
theorem negationTerm_builds (terms : Builds input (least + 1) term Expression.span .expression
      (·.IsArgument input.tokens.toList)) :
    Builds input least (negationTerm term) Expression.span .expression
      (·.IsArgument input.tokens.toList) := by
  refine .attempt (expressionOf_builds fun levels count start enough => ?_)
  refine .bind (spelled_ensures scanned (by decide) _) fun minus between facts => ?_
  obtain ⟨isMinus, found, starts, stops⟩ := facts
  have operand : Ensures input levels (count + 1) (count + 1 + 1) between term _ :=
    .wide scanned fun more le =>
      terms levels more between (Nat.le_trans (Nat.succ_le_succ enough) le)
  refine .map (operand.stay.imp fun operand stop facts => ?_)
  -- a term that is not negatable would begin with a symbol, which the lexer joins to the minus sign
  obtain ⟨wide, span, obeys, -, isNegatable | symbol, -⟩ := facts
  · have one : operand.span.start.offset = start.position.offset + 1 := by
      rw [span, stops, Scan.Divides.stop_eq scanned minus (List.mem_of_find?_eq_some found),
        Position.offset_advance, isMinus.2, starts]
      rfl
    have solid : ∀ u ∈ Text.ofString "-", Scan.isBlank u = false :=
      List.forall_mem_singleton.mpr (by decide)
    have stands := scanned.verbatim (List.mem_of_find?_eq_some found)
      (by rw [Token.isComment, isMinus.1]; rfl) (isMinus.2 ▸ solid)
    rw [starts, ← stops, isMinus.2] at stands
    have echoes : Expression.Echoes input.source input.tokens.toList
          ⟨⟨start.position, stop.position⟩, .negation operand⟩ := by
      refine ⟨?_, by rw [span], ?_⟩
      · rw [span]
        exact stands
      · rw [span, ← stands.over_eq, input.source.over_append stands.le (Nat.le_of_lt wide)]
    exact ⟨⟨trivial, isNegatable, trivial, one, echoes, trivial,
      List.forall_mem_singleton.mpr obeys⟩, rfl, .inr ⟨minus, found, starts, .inl isMinus.1⟩,
      fun _ => ⟨minus, found, starts, isMinus⟩⟩
  · rw [span, stops] at symbol
    exact absurd symbol (scanned.no_symbolAt isMinus (List.mem_of_find?_eq_some found))

include inner

/-- Ranges tell of their stretch. -/
theorem rangeTerm_builds :
    Builds input least (rangeTerm expression) Expression.span .expression
      (·.node.isNegatable = true) := by
  refine expressionOf_builds fun levels count start enough => ?_
  have bound :
    ∀ start, Ensures input levels (count + 1) (count + 1) start (padded expression) fun found _ =>
      input.Obeys (levels.headD 1) (.expression found.value) := by
    intro start
    refine (padded_ensures scanned fun start => inner.items (Nat.succ_le_succ enough) start).imp ?_
    rintro found stop ⟨_, _, facts, -⟩
    exact facts.1
  have bracketed : Ensures input levels count (count + 1) start (token .leftBracket "'['" >>=
      fun _ => padded expression >>= fun low => token .range "'..'" >>= fun _ =>
        padded expression >>= fun high => token .rightBracket "']'" >>= fun _ => pure (low, high))
      fun found _ => input.Obeys (levels.headD 1) (.expression found.1.value) ∧
        input.Obeys (levels.headD 1) (.expression found.2.value) := by
    refine .bind (token_ensures scanned (by decide) _) fun _ _ _ => ?_
    refine .bind (bound _) fun low _ obeysLow => ?_
    refine .bind (token_ensures scanned (by decide) _).stay fun _ _ _ => ?_
    refine .bind (bound _) fun high _ obeysHigh => ?_
    exact .bind (token_ensures scanned (by decide) _).stay fun _ _ _ => .pure ⟨obeysLow, obeysHigh⟩
  refine .bind bracketed.trackNewline fun found _ facts => ?_
  obtain ⟨⟨low, high⟩, multiline⟩ := found
  obtain ⟨crossed, obeysLow, obeysHigh⟩ := facts
  refine .pure ⟨⟨crossed, trivial, trivial, trivial, trivial, trivial, ?_⟩, rfl⟩
  exact List.forall_mem_cons.mpr ⟨obeysLow, List.forall_mem_singleton.mpr obeysHigh⟩

/-- Lists tell of their stretch. -/
theorem listTerm_builds :
    Builds input least (listTerm expression) Expression.span .expression
      (·.node.isNegatable = true) := by
  refine expressionOf_builds fun levels count start enough => ?_
  refine .bind (group_ensures scanned (by decide) _ (by decide)
      (inner.items (Nat.succ_le_succ enough))) fun found _ facts => ?_
  obtain ⟨contents, multiline⟩ := found
  obtain ⟨crossed, each⟩ := facts
  refine .pure ⟨⟨crossed, trivial, trivial, trivial, trivial, trivial, ?_⟩, rfl⟩
  exact List.forall_mem_map.mpr (List.forall_mem_map.mpr fun element member =>
      (each element member).1)

/-- What begins with a square bracket obeys the laws. -/
theorem bracketTerm_builds :
    Builds input least (bracketTerm expression) Expression.span .expression
      (·.node.isNegatable = true) := by
  refine .choice ?_
  simp only [List.forall_mem_cons, List.not_mem_nil, false_imp_iff, implies_true, and_true]
  exact ⟨shaderTerm_builds scanned, (rangeTerm_builds scanned inner).attempt,
    listTerm_builds scanned inner⟩

/-- A tuple has two elements at least, and tells of its stretch. -/
theorem tupleTerm_builds :
    Builds input least (tupleTerm expression) Expression.span .expression
      (·.node.isTarget = true) := by
  refine expressionOf_builds fun levels count start enough => ?_
  refine .bind (group_ensures scanned (by decide) _ (by decide)
      (inner.items (Nat.succ_le_succ enough))) fun found _ facts => ?_
  obtain ⟨⟨items, trailing⟩, multiline⟩ := found
  obtain ⟨crossed, each⟩ := facts
  rcases items with _ | ⟨first, _ | ⟨second, others⟩⟩
  · exact .pure ⟨⟨trivial, trivial, trivial, trivial, trivial, trivial, List.forall_mem_nil _⟩, rfl⟩
  · refine .pure ⟨⟨trivial, trivial, trivial, trivial, trivial, trivial, ?_⟩, rfl⟩
    exact List.forall_mem_singleton.mpr (each first (.head _)).1
  · refine .pure ⟨⟨crossed, Nat.le_add_left 2 _, trivial, trivial, trivial, trivial, ?_⟩, rfl⟩
    exact List.forall_mem_map.mpr (List.forall_mem_map.mpr fun element member =>
        (each element member).1)

/-- What begins with a parenthesis obeys the laws. -/
theorem parensTerm_builds :
    Builds input least (parensTerm expression) Expression.span .expression
      (·.node.isTarget = true) := by
  refine .choice ?_
  simp only [List.forall_mem_cons, List.not_mem_nil, false_imp_iff, implies_true, and_true]
  exact ⟨operatorTerm_builds scanned, tupleFunctionTerm_builds scanned,
    tupleTerm_builds scanned inner⟩

/-- A field tells whether a line break stands between its name and its value. -/
theorem recordPair_ensures {count : Nat} (enough : least + 1 ≤ count) (start : Cursor) :
    Ensures input levels count count start (recordPair expression) fun pair _ =>
      pair.Flagged input.source input.tokens.toList ∧
        input.Obeys (levels.headD 1) (.expression pair.value.value) := by
  refine .bind (lowerName_ensures scanned).stay fun name between facts => ?_
  obtain ⟨key, isKey, foundKey, -, keyStops⟩ := facts
  have sign : Ensures input levels count count between (whitespace >>= fun before =>
        satisfy (fun token => token.kind == .equals || token.kind == .colon) "'='" >>= fun _ =>
        whitespace >>= fun after => pure (before, after)) fun _ stop => ∃ sign first,
        solidFrom input.tokens.toList between.position = some sign ∧ (sign.kind = .equals ∨
        sign.kind = .colon) ∧ solidFrom input.tokens.toList sign.span.stop = some first ∧
        first.span.start = stop.position := by
    refine .bind (whitespace_ensures scanned) fun before _ leads => ?_
    refine .bind (satisfy_ensures scanned ?_ _).stay fun sign _ facts => ?_
    · intro token isSign isEnd
      simp [isEnd] at isSign
    obtain ⟨isSign, foundSign, -, signStops⟩ := facts
    refine .map ((whitespace_ensures scanned).imp fun after stop follows => ?_)
    obtain ⟨-, first, foundFirst, firstStarts⟩ := follows
    rw [signStops] at foundFirst
    refine ⟨sign, first, leads.1.symm.trans foundSign, ?_, foundFirst, firstStarts⟩
    simpa using isSign
  refine .bind sign.trackNewline fun marks behind facts => ?_
  obtain ⟨⟨before, after⟩, multiline⟩ := marks
  obtain ⟨crossed, sign, first, foundSign, isSign, foundFirst, firstStarts⟩ := facts
  refine .map ((inner levels count behind enough).stay.imp fun value stop facts => ?_)
  obtain ⟨span, obeys, -⟩ := facts
  refine ⟨⟨key, List.mem_of_find?_eq_some foundKey, sign, first, isKey, ?_, isSign, foundFirst,
    ?_, ?_⟩, obeys⟩
  · rw [← keyStops]
    exact foundSign
  · show first.span.start = value.span.start
    rw [span]
    exact firstStarts
  · show multiline = input.source.crosses key.span.stop value.span.start
    rw [span, ← keyStops]
    exact crossed

/-- Records and their fields tell of their stretches. -/
theorem recordTerm_builds :
    Builds input least (recordTerm expression) Expression.span .expression
      (·.node.isTarget = true) := by
  refine expressionOf_builds fun levels count start enough => ?_
  have braced : Ensures input levels count (count + 1) start
      (token .leftBrace "'\x7b'" >>= fun _ => optional recordBase >>= fun base =>
        separated .rightBrace (recordPair expression) "'\x7d'" >>= fun fields =>
          pure (base, fields))
      fun found _ => ∀ field ∈ found.2.items, field.value.Flagged input.source input.tokens.toList ∧
        input.Obeys (levels.headD 1) (.expression field.value.value.value) := by
    refine .bind (token_ensures scanned (by decide) _) fun _ _ _ => ?_
    refine .bind (recordBase_ensures scanned _) fun base _ _ => ?_
    exact .map (separated_ensures scanned (by decide) _
        (recordPair_ensures scanned inner (Nat.succ_le_succ enough)))
  refine .bind braced.trackNewline fun found _ facts => ?_
  obtain ⟨⟨base, fields⟩, multiline⟩ := found
  obtain ⟨crossed, each⟩ := facts
  refine .pure ⟨⟨⟨crossed, fun field member => (each field member).1⟩, trivial, trivial, trivial,
    trivial, trivial, ?_⟩, rfl⟩
  exact List.forall_mem_map.mpr (List.forall_mem_map.mpr fun field member => (each field member).2)

/-- Terms obey the laws if the expressions and terms inside do. -/
theorem termOver_builds (terms : Builds input (least + 1) term Expression.span .expression
      (·.IsArgument input.tokens.toList)) :
    Builds input least (termOver expression term) Expression.span .expression
      (·.IsArgument input.tokens.toList) := by
  have target : ∀ levels count start, least ≤ count →
        Ensures input levels count (count + 1) start (choice [nameTerm, parensTerm expression,
        recordTerm expression]) (Followed input levels start) := by
    intro levels count start enough
    have isFollowed : ∀ value stop, value.span = ⟨start.position, stop.position⟩ ∧
        input.Obeys (levels.headD 1) (.expression value) ∧ value.node.isTarget = true →
        Followed input levels start value stop := by
      rintro value stop ⟨span, obeys, isTarget⟩
      exact ⟨⟨span, obeys, ExpressionNode.isNegatable_of_isTarget isTarget⟩, .inl isTarget⟩
    refine .choice ?_
    simp only [List.forall_mem_cons, List.not_mem_nil, false_imp_iff, implies_true, and_true]
    exact ⟨nameTerm_ensures scanned, (parensTerm_builds scanned inner levels count start enough).imp
        isFollowed, (recordTerm_builds scanned inner levels count start enough).imp isFollowed⟩
  refine .expecting _ (.choice ?_)
  simp only [List.forall_mem_cons, List.not_mem_nil, false_imp_iff, implies_true, and_true]
  refine ⟨(literalTerm_builds scanned).imp ?_, (bracketTerm_builds scanned inner).imp ?_,
    accessorTerm_builds scanned, negationTerm_builds scanned terms,
    (accessible_builds scanned target).imp ?_⟩
  all_goals exact fun _ isNegatable => .of_negatable isNegatable

end Inside

end Marginalia
