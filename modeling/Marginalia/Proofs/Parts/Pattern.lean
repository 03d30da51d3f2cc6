import Marginalia.Proofs.Parts.Word

/-!
# Patterns and types obey the laws

One statement for each rule of the grammar, over what is known of the parsers of the patterns or
types inside it. The knot is tied by induction on the levels.
-/

namespace Marginalia

open Marginalia.Parser Marginalia.Grammar

variable {α β : Type} {input : Input} {levels : List Nat} {least : Nat} {start : Cursor}

/-! ## Parsers of parts -/

/-- The laws hold everywhere in a part that is measured from a column. -/
def Input.Obeys (input : Input) (reference : Nat) (part : Part) : Prop :=
  Placed.Everywhere (Placed.Sound input.source input.tokens.toList) ⟨reference, part⟩

/-- Behind so many tokens, the parser reads another token at least, and builds values that have the
span of their run, obey the laws and have a shape. -/
def Builds (input : Input) (least : Nat) (parser : Parser α) (span : α → Span) (part : α → Part)
    (shape : α → Prop) : Prop :=
  ∀ levels count start, least ≤ count →
    Ensures input levels count (count + 1) start parser fun value stop =>
    span value = ⟨start.position, stop.position⟩ ∧
      input.Obeys (levels.headD 1) (part value) ∧ shape value

namespace Builds

variable {parser : Parser α} {span : α → Span} {part : α → Part} {shape : α → Prop} {count : Nat}

/-- Values that are built obey the laws and have the shape. -/
theorem items (builds : Builds input least parser span part shape) (enough : least ≤ count)
    (start : Cursor) : Ensures input levels count count start parser fun value _ =>
      input.Obeys (levels.headD 1) (part value) ∧ shape value :=
  (builds levels count start enough).stay.imp fun _ _ facts => facts.2

/-- The shape may be said in another way. -/
theorem imp {other : α → Prop} (builds : Builds input least parser span part shape)
    (weaker : ∀ value, shape value → other value) : Builds input least parser span part other :=
  fun levels count start enough => (builds levels count start enough).imp fun value _ facts =>
    ⟨facts.1, facts.2.1, weaker value facts.2.2⟩

/-- A parser that does the same builds the same. -/
theorem congr {other : Parser α} (builds : Builds input least parser span part shape)
    (same : ∀ cursor, input.At cursor → other input cursor = parser input cursor) :
    Builds input least other span part shape := by
  intro levels count start enough level value stop run
  rw [same start level.place] at run
  exact builds levels count start enough level value stop run

/-- Replacing what is expected changes nothing that is built. -/
theorem expecting (label : String) (builds : Builds input least parser span part shape) :
    Builds input least (Parser.expecting label parser) span part shape :=
  fun levels count start enough => (builds levels count start enough).expecting label

/-- An attempt builds what its parser does. -/
theorem attempt (builds : Builds input least parser span part shape) :
    Builds input least (Parser.attempt parser) span part shape :=
  fun levels count start enough => (builds levels count start enough).attempt

/-- A choice builds what all of its alternatives do. -/
theorem choice {alternatives : List (Parser α)}
    (builds : ∀ alternative ∈ alternatives, Builds input least alternative span part shape) :
    Builds input least (Parser.choice alternatives) span part shape :=
  fun levels count start enough => .choice fun alternative member =>
    builds alternative member levels count start enough

/-- A parser that never succeeds builds anything. -/
theorem interrupt (interruption : Interruption) :
    Builds input least (Parser.interrupt interruption) span part shape := by
  intro levels count start enough level value stop run
  cases run

end Builds

/-- What is known of an argument. -/
structure Input.Argues (input : Input) (reference : Nat) (span : α → Span) (part : α → Part)
    (shape : α → Prop) (value : α) : Prop where
  /-- It stands past the reference. -/
  past : reference < (span value).start.column
  /-- It obeys the laws. -/
  obeys : input.Obeys reference (part value)
  /-- It has the shape. -/
  shaped : shape value

/-- Spaced items obey the laws and stand past the reference. -/
theorem Builds.spaced (scanned : input.Scanned) {item : Parser α} {span : α → Span}
    {part : α → Part} {shape : α → Prop} {count : Nat}
    (builds : Builds input least item span part shape) (enough : least ≤ count) :
    Ensures input levels count count start (spaced item) fun found _ =>
      ∀ one ∈ found, input.Argues (levels.headD 1) span part shape one.value := by
  refine .many fun start => ?_
  refine (spacedItem_ensures scanned fun start => (builds levels count start enough).stay).imp ?_
  rintro found stop ⟨first, -, past, spanned, obeys, shaped⟩
  refine ⟨?_, obeys, shaped⟩
  rw [spanned]
  exact past

/-! ## Patterns -/

/-- The node of a pattern with a span obeys the laws, as do the patterns inside it. -/
structure PatternNode.Fits (input : Input) (reference : Nat) (span : Span)
    (node : PatternNode Pattern) : Prop where
  /-- The node is in normal form. -/
  canonical : node.Canonical
  /-- It keeps to the offside rule. -/
  offside : (Placed.mk reference (.pattern ⟨span, node⟩)).Offside input.tokens.toList
  /-- Its words stand in the source. -/
  echoes : Pattern.Echoes input.source input.tokens.toList ⟨span, node⟩
  /-- So do the patterns inside. -/
  inside : ∀ pattern ∈ node.children, input.Obeys reference (.pattern pattern)

/-- A pattern obeys the laws if its node does. -/
theorem PatternNode.Fits.obeys {reference : Nat} {span : Span} {node : PatternNode Pattern}
    (fits : node.Fits input reference span) : input.Obeys reference (.pattern ⟨span, node⟩) := by
  refine .intro ⟨trivial, fits.canonical, fits.offside, trivial, fits.echoes, trivial⟩
    fun inner member => ?_
  obtain ⟨pattern, inside, rfl⟩ := List.mem_map.mp member
  exact fits.inside pattern inside

/-- A term needs no parentheses beside a `::` either. -/
theorem PatternNode.isOperand_of_isTerm {node : PatternNode Pattern} (isTerm : node.isTerm = true) :
    node.isOperand = true := by
  cases node with
  | operator | cons | named => cases isTerm
  | _ => rfl

/-- An operand has no name for the whole. -/
theorem PatternNode.isNamed_of_isOperand {node : PatternNode Pattern}
    (isOperand : node.isOperand = true) : node.isNamed = false := by
  cases node with
  | named => cases isOperand
  | _ => rfl

/-- A located node is a pattern. -/
theorem patternOf_builds {node : Parser (PatternNode Pattern)} {shape : PatternNode Pattern → Bool}
      (ensures : ∀ levels count start, least ≤ count →
      Ensures input levels count (count + 1) start node fun found stop =>
      found.Fits input (levels.headD 1) ⟨start.position, stop.position⟩ ∧ shape found = true) :
    Builds input least (patternOf node) Pattern.span .pattern (shape ·.node) := by
  intro levels count start enough
  refine .map ((ensures levels count start enough).located.imp fun found stop facts => ?_)
  obtain ⟨span, fits, shaped⟩ := facts
  rw [← span] at fits
  exact ⟨span, fits.obeys, shaped⟩

section Patterns

variable (scanned : input.Scanned)

include scanned

/-- A record pattern has a field. -/
theorem recordPattern_ensures :
    Ensures input levels least (least + 1) start recordPattern fun node stop =>
      node.Fits input (levels.headD 1) ⟨start.position, stop.position⟩ ∧ node.isTerm = true := by
  have names :
      ∀ start, Ensures input levels (least + 1) (least + 1) start lowerName fun _ _ => True :=
    fun start => (lowerName_ensures scanned).stay.imp fun _ _ _ => trivial
  refine .bind (group_ensures scanned (by decide) _ (by decide) names) fun found _ _ => ?_
  obtain ⟨⟨items, trailing⟩, crossed⟩ := found
  cases items with
  | nil => exact .fail _
  | cons field fields =>
    exact .pure ⟨⟨List.cons_ne_nil _ _, trivial, trivial, List.forall_mem_nil _⟩, rfl⟩

section Inside

variable {pattern : Parser Pattern}
  (inner : Builds input (least + 1) pattern Pattern.span .pattern fun _ => True)

include inner

/-- A tuple of patterns has two elements at least. -/
theorem tuplePattern_ensures :
    Ensures input levels least (least + 1) start (tuplePattern pattern) fun node stop =>
      node.Fits input (levels.headD 1) ⟨start.position, stop.position⟩ ∧ node.isTerm = true := by
  refine .bind (group_ensures scanned (by decide) _ (by decide) (inner.items (Nat.le_refl _)))
    fun found _ facts => ?_
  obtain ⟨⟨items, trailing⟩, crossed⟩ := found
  obtain ⟨-, each⟩ := facts
  rcases items with _ | ⟨first, _ | ⟨second, others⟩⟩
  · exact .pure ⟨⟨trivial, trivial, trivial, List.forall_mem_nil _⟩, rfl⟩
  · refine .pure ⟨⟨trivial, trivial, trivial, ?_⟩, rfl⟩
    exact List.forall_mem_singleton.mpr (each first (.head _)).1
  · refine .pure ⟨⟨Nat.le_add_left 2 _, trivial, trivial, ?_⟩, rfl⟩
    exact List.forall_mem_map.mpr fun element member => (each element member).1

/-- A list of patterns that is not the empty one has an element. -/
theorem listPattern_ensures :
    Ensures input levels least (least + 1) start (listPattern pattern) fun node stop =>
      node.Fits input (levels.headD 1) ⟨start.position, stop.position⟩ ∧ node.isTerm = true := by
  refine .bind (group_ensures scanned (by decide) _ (by decide) (inner.items (Nat.le_refl _)))
    fun found _ facts => ?_
  obtain ⟨⟨items, trailing⟩, crossed⟩ := found
  obtain ⟨-, each⟩ := facts
  cases items with
  | nil => exact .pure ⟨⟨trivial, trivial, trivial, List.forall_mem_nil _⟩, rfl⟩
  | cons first others =>
    refine .pure ⟨⟨List.cons_ne_nil _ _, trivial, trivial, ?_⟩, rfl⟩
    exact List.forall_mem_map.mpr fun element member => (each element member).1

end Inside

/-- A pattern of one word has nothing inside. -/
theorem wordPattern_ensures :
    Ensures input levels least (least + 1) start wordPattern fun node stop =>
      node.Fits input (levels.headD 1) ⟨start.position, stop.position⟩ ∧ node.isTerm = true := by
  refine .ifPeek ?_ (.ifPeek ?_ (.ifPeek ?_ ?_))
  · refine .bind (token_ensures scanned (by decide) _) fun _ _ _ => ?_
    exact .pure ⟨⟨trivial, trivial, trivial, List.forall_mem_nil _⟩, rfl⟩
  · refine .map ((lowerName_verbatim scanned).imp fun _ _ stands => ?_)
    exact ⟨⟨trivial, trivial, stands, List.forall_mem_nil _⟩, rfl⟩
  · refine .map ((qualifiedUpperName_ensures scanned).imp fun _ _ _ => ?_)
    exact ⟨⟨List.forall_mem_nil _, List.forall_mem_nil _, trivial, List.forall_mem_nil _⟩, rfl⟩
  · refine .map ((literal_ensures scanned).imp fun _ _ spells => ?_)
    exact ⟨⟨trivial, trivial, spells, List.forall_mem_nil _⟩, rfl⟩

/-- Terms of patterns obey the laws if the patterns inside do. -/
theorem patternTermOver_builds {pattern : Parser Pattern}
    (inner : Builds input (least + 1) pattern Pattern.span .pattern fun _ => True) :
    Builds input least (patternTermOver pattern) Pattern.span .pattern (·.node.isTerm) := by
  refine .expecting _ (patternOf_builds fun levels count start enough => .choice ?_)
  have further : Builds input (count + 1) pattern Pattern.span .pattern fun _ => True :=
    fun levels more start le => inner levels more start (by omega)
  simp only [List.forall_mem_cons, List.not_mem_nil, false_imp_iff, implies_true, and_true]
  exact ⟨recordPattern_ensures scanned, tuplePattern_ensures scanned further,
    listPattern_ensures scanned further, wordPattern_ensures scanned⟩

section Terms

variable {term : Parser Pattern}
  (terms : Builds input least term Pattern.span .pattern (·.node.isTerm))

include terms

/-- The arguments of a constructor are terms past the reference. -/
theorem patternOperand_builds :
    Builds input least (patternOperand term) Pattern.span .pattern (·.node.isOperand) := by
  intro levels count start enough
  refine .ifPeek ?_ ?_
  · refine patternOf_builds (fun levels count start enough => ?_) levels count start enough
    refine .bind (qualifiedUpperName_ensures scanned) fun tag _ _ => ?_
    refine .map ((terms.spaced scanned (Nat.le_succ_of_le enough)).imp
        fun arguments stop each => ?_)
    have areTerms : ∀ argument ∈ arguments, argument.value.node.isTerm = true :=
      fun argument member => (each argument member).shaped
    refine ⟨⟨areTerms, fun argument member => (each argument member).past, trivial, ?_⟩, rfl⟩
    exact List.forall_mem_map.mpr fun argument member => (each argument member).obeys
  · exact terms.imp (fun pattern isTerm => PatternNode.isOperand_of_isTerm isTerm) levels
      count start enough

/-- Operands with `::` between them obey the laws; alone, an operand is what it is. -/
theorem consPattern_builds :
    Builds input least (consPattern term) Pattern.span .pattern (·.node.isNamed = false) := by
  intro levels count start enough
  have operands := patternOperand_builds scanned terms
  have cons :
      ∀ start, Ensures input levels (count + 1) (count + 1) start (operator "::") fun _ _ => True :=
    fun start => (spelled_ensures scanned (by decide) _).stay.imp fun _ _ _ => trivial
  refine .position (.bind (joined_ensures scanned cons (fun more start le =>
      operands levels more start (Nat.le_trans enough le)) fun _ _ _ holds => holds.2) ?_)
  rintro ⟨first, rest⟩ between ⟨each, alone⟩
  cases rest with
  | nil =>
    obtain ⟨span, obeys, isOperand⟩ := alone rfl
    exact .pure ⟨span, obeys, PatternNode.isNamed_of_isOperand isOperand⟩
  | cons second others =>
    have inside : ∀ pattern ∈ (first :: second :: others).map (·.value),
        input.Obeys (levels.headD 1) (.pattern pattern) :=
      List.forall_mem_map.mpr fun operand member => (each operand member).1
    have fits : PatternNode.Fits input (levels.headD 1) ⟨start.position, between.position⟩
        (.cons first (second :: others)) :=
      ⟨⟨List.cons_ne_nil _ _, fun operand member => (each operand member).2⟩, trivial,
        trivial, inside⟩
    exact .position (.pure ⟨rfl, fits.obeys, rfl⟩)

/-- Patterns obey the laws if their terms do. -/
theorem patternOver_builds :
    Builds input least (patternOver term) Pattern.span .pattern fun _ => True := by
  refine .expecting _ fun levels count start enough => ?_
  have name :
      ∀ start, Ensures input levels (count + 1) (count + 1) start aliasKeyword fun _ _ => True := by
    intro start
    refine .attempt (.bind (whitespace_ensures scanned) fun comments _ _ => ?_)
    exact .bind (keyword_ensures scanned _).stay fun _ _ _ => .pure trivial
  refine .position (.bind (consPattern_builds scanned terms levels count start enough)
      fun pattern between facts => ?_)
  obtain ⟨span, obeys, unnamed⟩ := facts
  refine .bind ((name between).optional (Nat.le_refl _)) fun found behind facts => ?_
  rcases facts with ⟨before, rfl, -⟩ | ⟨rfl, rfl⟩
  · refine .bind (whitespace_ensures scanned) fun after _ _ => ?_
    refine .bind (lowerName_ensures scanned).stay fun text stop _ => .position ?_
    have fits : PatternNode.Fits input (levels.headD 1) ⟨start.position, stop.position⟩
        (.named (.post pattern before) (.pre after text)) :=
      ⟨unnamed, trivial, trivial, List.forall_mem_singleton.mpr obeys⟩
    exact .pure ⟨rfl, fits.obeys, trivial⟩
  · exact .pure ⟨span, obeys, trivial⟩

end Terms

/-- Terms of patterns at every level obey the laws. -/
theorem patternTermWithin_builds (depth : Nat) (least : Nat) :
    Builds input least (patternTermWithin depth) Pattern.span .pattern (·.node.isTerm) := by
  induction depth generalizing least with
  | zero => exact .interrupt _
  | succ depth ih =>
    exact patternTermOver_builds scanned (patternOver_builds scanned (ih (least + 1)))

/-- Terms of patterns obey the laws. -/
theorem patternTerm_builds : Builds input least patternTerm Pattern.span .pattern (·.node.isTerm) :=
  fun levels count start enough level value stop run =>
    patternTermWithin_builds scanned input.nestingLimit least levels count start enough level
      value stop run

/-- Patterns obey the laws. -/
theorem pattern_builds : Builds input least pattern Pattern.span .pattern fun _ => True :=
  patternOver_builds scanned (patternTerm_builds scanned)

end Patterns

/-! ## Types -/

/-- The node of a type with a span obeys the laws, as do the types inside it. -/
structure TypeNode.Fits (input : Input) (reference : Nat) (span : Span)
    (node : TypeNode TypeExpression) : Prop where
  /-- Its layout flags tell the line breaks of the source. -/
  flagged : TypeExpression.Flagged input.source ⟨span, node⟩
  /-- The node is in normal form. -/
  canonical : node.Canonical
  /-- It keeps to the offside rule. -/
  offside : (Placed.mk reference (.type ⟨span, node⟩)).Offside input.tokens.toList
  /-- Its name stands in the source. -/
  echoes : TypeExpression.Echoes input.source input.tokens.toList ⟨span, node⟩
  /-- So do the types inside. -/
  inside : ∀ type ∈ node.children, input.Obeys reference (.type type)

/-- A type obeys the laws if its node does. -/
theorem TypeNode.Fits.obeys {reference : Nat} {span : Span} {node : TypeNode TypeExpression}
    (fits : node.Fits input reference span) : input.Obeys reference (.type ⟨span, node⟩) := by
  refine .intro ⟨fits.flagged, fits.canonical, fits.offside, trivial, fits.echoes, trivial⟩
    fun inner member => ?_
  obtain ⟨type, inside, rfl⟩ := List.mem_map.mp member
  exact fits.inside type inside

/-- A term needs no parentheses beside an arrow either. -/
theorem TypeNode.isOperand_of_isTerm {node : TypeNode TypeExpression}
    (isTerm : node.isTerm = true) : node.isOperand = true := by
  cases node with
  | function => cases isTerm
  | _ => rfl

/-- A located node is a type. -/
theorem typeOf_builds {node : Parser (TypeNode TypeExpression)}
      {shape : TypeNode TypeExpression → Bool} (ensures : ∀ levels count start, least ≤ count →
      Ensures input levels count (count + 1) start node fun found stop =>
      found.Fits input (levels.headD 1) ⟨start.position, stop.position⟩ ∧ shape found = true) :
    Builds input least (typeOf node) TypeExpression.span .type (shape ·.node) := by
  intro levels count start enough
  refine .map ((ensures levels count start enough).located.imp fun found stop facts => ?_)
  obtain ⟨span, fits, shaped⟩ := facts
  rw [← span] at fits
  exact ⟨span, fits.obeys, shaped⟩

section Types

variable (scanned : input.Scanned)

include scanned

section Inside

variable {type : Parser TypeExpression}
  (inner : Builds input (least + 1) type TypeExpression.span .type fun _ => True)

include inner

/-- A tuple of types has two elements at least. -/
theorem tupleType_ensures :
    Ensures input levels least (least + 1) start (tupleType type) fun node stop =>
    node.Fits input (levels.headD 1) ⟨start.position, stop.position⟩ ∧ node.isTerm = true := by
  refine .bind (group_ensures scanned (by decide) _ (by decide) (inner.items (Nat.le_refl _)))
    fun found _ facts => ?_
  obtain ⟨⟨items, trailing⟩, crossed⟩ := found
  obtain ⟨-, each⟩ := facts
  rcases items with _ | ⟨first, _ | ⟨second, others⟩⟩
  · exact .pure ⟨⟨trivial, trivial, trivial, trivial, List.forall_mem_nil _⟩, rfl⟩
  · refine .pure ⟨⟨trivial, trivial, trivial, trivial, ?_⟩, rfl⟩
    exact List.forall_mem_singleton.mpr (each first (.head _)).1
  · refine .pure ⟨⟨trivial, Nat.le_add_left 2 _, trivial, trivial, ?_⟩, rfl⟩
    exact List.forall_mem_map.mpr fun element member => (each element member).1

/-- The type of a field obeys the laws. -/
theorem recordTypeField_ensures (start : Cursor) :
    Ensures input levels (least + 1) (least + 1) start (recordTypeField type) fun field _ =>
      input.Obeys (levels.headD 1) (.type field.type.value) := by
  refine .bind (lowerName_ensures scanned).stay fun name _ _ => ?_
  refine .bind (whitespace_ensures scanned) fun before _ _ => ?_
  refine .bind (token_ensures scanned (by decide) _).stay fun _ _ _ => ?_
  refine .bind (whitespace_ensures scanned) fun after _ _ => ?_
  exact .map ((inner.items (Nat.le_refl _) _).imp fun _ _ facts => facts.1)

omit inner in
/-- The record that is extended or updated keeps the references of indentation. -/
theorem recordBase_ensures (start : Cursor) :
    Ensures input levels least least start (optional recordBase) fun _ _ => True := by
  have base : Ensures input levels least least start recordBase fun _ _ => True := by
    refine .attempt (.bind (padded_ensures scanned fun start => (lowerName_ensures scanned).stay)
        fun name _ _ => ?_)
    exact .bind (token_ensures scanned (by decide) _).stay fun _ _ _ => .pure trivial
  exact (base.optional (Nat.le_refl _)).imp fun _ _ _ => trivial

/-- A record type tells of its stretch. -/
theorem recordType_ensures :
    Ensures input levels least (least + 1) start (recordType type) fun node stop =>
    node.Fits input (levels.headD 1) ⟨start.position, stop.position⟩ ∧ node.isTerm = true := by
  have braced : Ensures input levels least (least + 1) start
      (token .leftBrace "'\x7b'" >>= fun _ => optional recordBase >>= fun base =>
        separated .rightBrace (recordTypeField type) "'\x7d'" >>= fun fields => pure (base, fields))
      fun found _ => ∀ field ∈ found.2.items,
        input.Obeys (levels.headD 1) (.type field.value.type.value) := by
    refine .bind (token_ensures scanned (by decide) _) fun _ _ _ => ?_
    refine .bind (recordBase_ensures scanned _) fun base _ _ => ?_
    exact .map (separated_ensures scanned (by decide) _ (recordTypeField_ensures scanned inner))
  refine .bind braced.trackNewline fun found _ facts => ?_
  obtain ⟨⟨base, fields⟩, multiline⟩ := found
  obtain ⟨crossed, each⟩ := facts
  refine .pure ⟨⟨crossed, trivial, trivial, trivial, ?_⟩, rfl⟩
  exact List.forall_mem_map.mpr each

end Inside

/-- Terms of types obey the laws if the types inside do. -/
theorem typeTermOver_builds {type : Parser TypeExpression}
    (inner : Builds input (least + 1) type TypeExpression.span .type fun _ => True) :
    Builds input least (typeTermOver type) TypeExpression.span .type (·.node.isTerm) := by
  refine .expecting _ (typeOf_builds fun levels count start enough => .choice ?_)
  have further : Builds input (count + 1) type TypeExpression.span .type fun _ => True :=
    fun levels more start le => inner levels more start (by omega)
  simp only [List.forall_mem_cons, List.not_mem_nil, false_imp_iff, implies_true, and_true]
  refine ⟨tupleType_ensures scanned further, recordType_ensures scanned further, ?_, ?_⟩
  · refine .map ((lowerName_verbatim scanned).imp fun _ _ stands => ?_)
    exact ⟨⟨trivial, trivial, trivial, stands, List.forall_mem_nil _⟩, rfl⟩
  · refine .map ((qualifiedUpperName_ensures scanned).imp fun _ _ _ => ?_)
    exact ⟨⟨trivial, List.forall_mem_nil _, List.forall_mem_nil _, trivial, List.forall_mem_nil _⟩,
      rfl⟩

section Terms

variable {term : Parser TypeExpression}
  (terms : Builds input least term TypeExpression.span .type (·.node.isTerm))

include terms

/-- The arguments of a type constructor are terms past the reference. -/
theorem typeOperand_builds :
    Builds input least (typeOperand term) TypeExpression.span .type (·.node.isOperand) := by
  intro levels count start enough
  refine .ifPeek ?_ ?_
  · refine typeOf_builds (fun levels count start enough => ?_) levels count start enough
    refine .bind (qualifiedUpperName_ensures scanned) fun tag _ _ => ?_
    refine .map ((terms.spaced scanned (Nat.le_succ_of_le enough)).imp
        fun arguments stop each => ?_)
    refine ⟨⟨trivial, fun argument member => (each argument member).shaped,
      fun argument member => (each argument member).past, trivial, ?_⟩, rfl⟩
    exact List.forall_mem_map.mpr fun argument member => (each argument member).obeys
  · exact terms.imp (fun type isTerm => TypeNode.isOperand_of_isTerm isTerm) levels
      count start enough

/-- Types obey the laws if their terms do. -/
theorem typeOver_builds :
    Builds input least (typeOver term) TypeExpression.span .type fun _ => True := by
  refine .expecting _ fun levels count start enough => ?_
  have operands := typeOperand_builds scanned terms
  have arrow : ∀ start, Ensures input levels (count + 1) (count + 1) start (token .arrow "'->'")
        fun _ _ => True :=
    fun start => (token_ensures scanned (by decide) _).stay.imp fun _ _ _ => trivial
  have chain : Ensures input levels count (count + 1) start
        (joined (token .arrow "'->'") (typeOperand term)) _ :=
    joined_ensures scanned arrow (fun more start le =>
        operands levels more start (Nat.le_trans enough le)) fun _ _ _ holds => holds.2
  refine .position (.bind chain.trackNewline ?_)
  rintro ⟨⟨first, rest⟩, multiline⟩ between ⟨crossed, each, alone⟩
  cases rest with
  | nil =>
    obtain ⟨span, obeys, -⟩ := alone rfl
    exact .pure ⟨span, obeys, trivial⟩
  | cons second others =>
    have inside : ∀ type ∈ (first :: second :: others).map (·.value),
          input.Obeys (levels.headD 1) (.type type) :=
      List.forall_mem_map.mpr fun operand member => (each operand member).1
    have fits : TypeNode.Fits input (levels.headD 1) ⟨start.position, between.position⟩
        (.function first (second :: others) multiline) :=
      ⟨crossed, ⟨List.cons_ne_nil _ _, fun operand member => (each operand member).2⟩, trivial,
        trivial, inside⟩
    exact .position (.pure ⟨rfl, fits.obeys, trivial⟩)

end Terms

/-- Terms of types at every level obey the laws. -/
theorem typeTermWithin_builds (depth : Nat) (least : Nat) :
    Builds input least (typeTermWithin depth) TypeExpression.span .type (·.node.isTerm) := by
  induction depth generalizing least with
  | zero => exact .interrupt _
  | succ depth ih => exact typeTermOver_builds scanned (typeOver_builds scanned (ih (least + 1)))

/-- Terms of types obey the laws. -/
theorem typeTerm_builds : Builds input least typeTerm TypeExpression.span .type (·.node.isTerm) :=
  fun levels count start enough level value stop run =>
    typeTermWithin_builds scanned input.nestingLimit least levels count start enough level
      value stop run

/-- Types obey the laws. -/
theorem typeExpression_builds :
    Builds input least typeExpression TypeExpression.span .type fun _ => True :=
  typeOver_builds scanned (typeTerm_builds scanned)

end Types

end Marginalia
