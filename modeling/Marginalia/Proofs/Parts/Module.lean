import Marginalia.Grammar.Module
import Marginalia.Proofs.Parts.Expression
import Marginalia.Proofs.Spelling.Source
import Marginalia.Proofs.Tiling.Source

/-!
# Modules obey the laws

The entries of a module obey the laws, and so does an expression, a pattern or a type that is read
alone. The parameters of a type have no spans of their own, so their places are followed from token
to token.
-/

namespace Marginalia

open Marginalia.Parser Marginalia.Grammar

variable {α : Type} {input : Input} {levels : List Nat} {least : Nat} {start : Cursor}

section Declarations

variable (scanned : input.Scanned)

include scanned

/-! ## Types -/

/-- The parameters of a type stand past the reference, one behind the other. -/
theorem parameters_ensures :
    Ensures input levels least least start (spaced lowerName) fun found stop =>
      NamedPast input.tokens.toList (levels.headD 1) start.position
        (found.map (·.value)) stop.position := by
  refine .manyChain (motive := fun start found stop =>
    NamedPast input.tokens.toList (levels.headD 1) start.position
      (found.map (·.value)) stop.position)
    (fun start => spacedItem_ensures scanned fun start => (lowerName_ensures scanned).stay)
      (fun cursor => .nil _) ?_
  intro start parameter between rest stop facts further
  obtain ⟨first, same, past, token, isName, found, starts, stops⟩ := facts
  rw [stops] at further
  rw [List.map_cons, ← isName.2]
  refine .cons (same.symm.trans found) isName.1 ?_ further
  rw [starts]
  exact past

/-- The word for another name of a type is the next token. -/
theorem aliasWord_ensures :
    Ensures input levels least least start aliasWord fun _ stop => ∃ second,
      solidFrom input.tokens.toList start.position = some second ∧
      second.Is .lowerIdentifier "alias" ∧ stop.position = second.span.stop := by
  refine .attempt (.bind (whitespace_ensures scanned) fun comments _ leads => ?_)
  refine .bind (spelled_ensures scanned (by decide) _).stay fun second _ facts => .pure ?_
  exact ⟨second, leads.1.symm.trans facts.2.1, facts.1, facts.2.2.2⟩

/-- The types of a constructor's arguments obey the laws and stand past the reference. -/
theorem variant_ensures :
    Ensures input levels least least start variant fun found _ =>
      input.Obeys (levels.headD 1) (.variant found) := by
  have parts : Ensures input levels least least start (upperName >>= fun name => spaced typeTerm >>=
        fun arguments => pure (⟨name, arguments⟩ : ConstructorVariant)) fun found _ =>
        ∀ one ∈ found.arguments, input.Argues (levels.headD 1) TypeExpression.span .type
        (·.node.isTerm = true) one.value := by
    refine .bind (upperName_ensures scanned).stay fun name _ _ => ?_
    exact .map ((typeTerm_builds scanned).spaced scanned (Nat.zero_le _))
  refine parts.located.imp fun found _ facts => ?_
  obtain ⟨-, argues⟩ := facts
  refine .intro ⟨trivial, fun one member => (argues one member).shaped, fun one member =>
      (argues one member).past, trivial, trivial, trivial⟩ ?_
  exact List.forall_mem_map.mpr fun one member => (argues one member).obeys

/-- The constructors of a type obey the laws. -/
theorem variantsUpTo_ensures (bound : Nat) (before : Comments) (start : Cursor) :
    Ensures input levels least least start (variantsUpTo bound before) fun found _ =>
      ∀ one ∈ found, input.Obeys (levels.headD 1) (.variant one.value) := by
  induction bound generalizing before start with
  | zero =>
    intro level values stop run
    cases run
  | succ bound ih =>
    refine .bind (variant_ensures scanned) fun first between obeys => ?_
    have bar : Ensures input levels least least between variantBar fun _ _ => True := by
      refine .attempt (.bind (whitespace_ensures scanned) fun comments _ _ => ?_)
      exact .bind (token_ensures scanned (by decide) _).stay fun _ _ _ => .pure trivial
    refine .bind (bar.optional (Nat.le_refl _)) fun found _ facts => ?_
    rcases facts with ⟨after, rfl, -⟩ | ⟨rfl, -⟩
    · refine .bind (whitespace_ensures scanned) fun next _ _ => ?_
      exact .map ((ih next _).imp fun rest _ others => List.forall_mem_cons.mpr ⟨obeys, others⟩)
    · exact .pure (List.forall_mem_singleton.mpr obeys)

/-- All constructors of a type obey the laws. -/
theorem variants_ensures (before : Comments) :
    Ensures input levels least least start (variants before) fun found _ =>
      ∀ one ∈ found, input.Obeys (levels.headD 1) (.variant one.value) :=
  fun level found stop run =>
    variantsUpTo_ensures scanned input.repetitionLimit before start level found stop run

/-! ## Entries -/

/-- An entry between two places keeps to the offside rule, and what it is made of obeys the laws. -/
def Input.Enters (input : Input) (reference : Nat) (start : Cursor) (entry : TopLevel)
    (stop : Cursor) : Prop :=
  entry.Offside input.tokens.toList reference ⟨start.position, stop.position⟩ ∧
    ∀ placed ∈ entry.placed reference, input.Obeys placed.reference placed.part

/-- The declaration of a type in the first column. -/
theorem typeDeclaration_ensures (first : start.position.column = 1) :
    Ensures input levels least (least + 1) start typeDeclaration
      (input.Enters (levels.headD 1) start) := by
  refine .bind (keyword_ensures scanned _) fun word between facts => ?_
  obtain ⟨isWord, foundWord, wordStarts, wordStops⟩ := facts
  refine .bind ((aliasWord_ensures scanned).optional (Nat.le_refl _))
    fun aliasComments place isAlias => ?_
  refine .bind (whitespace_ensures scanned) fun preName _ leads => ?_
  refine .bind (upperName_ensures scanned).stay fun name _ facts => ?_
  obtain ⟨upper, isUpper, foundUpper, -, upperStops⟩ := facts
  refine .bind (parameters_ensures scanned) fun parameters last named => ?_
  refine .bind (whitespace_ensures scanned) fun preEquals _ follows => ?_
  refine .bind (token_ensures scanned (by decide) _).stay fun sign _ facts => ?_
  obtain ⟨isSign, foundSign, -, -⟩ := facts
  refine .bind (whitespace_ensures scanned) fun postEquals _ _ => ?_
  rw [upperStops] at named
  have foundUpper' := leads.1.symm.trans foundUpper
  have behind : ∃ stop, NamedPast input.tokens.toList (levels.headD 1) upper.span.stop
        (parameters.map (·.value)) stop ∧ ∃ sign, solidFrom input.tokens.toList stop = some sign ∧
        sign.kind = .equals :=
    ⟨_, named, sign, follows.1.symm.trans foundSign, isSign⟩
  rcases isAlias with ⟨comments, rfl, second, foundSecond, isSecond, secondStops⟩ | ⟨rfl, rfl⟩
  · have past : ParametersPast input.tokens.toList (levels.headD 1) start.position true name
        (parameters.map (·.value)) := by
      rw [wordStops] at foundSecond
      exact ⟨word, foundWord, wordStarts, isWord, place.position,
        ⟨second, foundSecond, isSecond, secondStops⟩, upper, foundUpper', isUpper, behind⟩
    refine .map (((typeExpression_builds scanned).items (Nat.zero_le _) _).imp
        fun type _ facts => ?_)
    exact ⟨⟨first, past⟩, List.forall_mem_singleton.mpr facts.1⟩
  · have past : ParametersPast input.tokens.toList (levels.headD 1) start.position false name
        (parameters.map (·.value)) :=
      ⟨word, foundWord, wordStarts, isWord, place.position, wordStops, upper, foundUpper',
        isUpper, behind⟩
    refine .map ((variants_ensures scanned _).imp fun found _ each => ⟨⟨first, past⟩, ?_⟩)
    exact List.forall_mem_map.mpr each

/-- The declaration of a fixity is read. -/
theorem fixityDeclaration_ensures :
    Ensures input levels least (least + 1) start fixityDeclaration fun _ _ => True := by
  have symbol : ∀ start, Ensures input levels (least + 1) (least + 1) start
      (choice [parenthesizedOperator, operatorSymbol]) fun _ _ => True := by
    intro start
    refine .choice ?_
    simp only [List.forall_mem_cons, List.not_mem_nil, false_imp_iff, implies_true, and_true]
    exact ⟨(parenthesizedOperator_ensures scanned).stay.imp fun _ _ _ => trivial,
      (operatorSymbol_ensures scanned).stay.imp fun _ _ _ => trivial⟩
  refine .bind (satisfy_ensures scanned ?_ _) fun word _ _ => ?_
  · intro token isWord isEnd
    simp [isEnd] at isWord
  refine .bind (whitespace_ensures scanned) fun _ _ _ => ?_
  refine .bind (token_ensures scanned (by decide) _).stay fun number _ _ => ?_
  split
  · intro level value stop run
    cases run
  · refine .bind (whitespace_ensures scanned) fun _ _ _ => ?_
    exact .map ((symbol _).imp fun _ _ _ => trivial)

/-- Entries at the top level begin in the first column and obey the laws. -/
theorem topLevel_ensures :
    Ensures input levels least (least + 1) start topLevel fun entry _ =>
      input.Obeys 1 (.entry entry) := by
  refine .position ?_
  split
  · exact .fail _
  · rename_i first
    have first : start.position.column = 1 := by simpa using first
    have entry : Ensures input (start.position.column :: levels) least (least + 1)
        { start with indentation := start.position.column :: levels }
        (choiceNamed "a declaration" [do return .fixity (← fixityDeclaration), typeDeclaration,
          do return .declaration (← declaration expression)]) (input.Enters 1 start) := by
      refine .choice ?_
      simp only [List.forall_mem_cons, List.not_mem_nil, false_imp_iff, implies_true, and_true]
      rw [first]
      refine ⟨?_, typeDeclaration_ensures scanned first, ?_⟩
      · exact .map ((fixityDeclaration_ensures scanned).imp fun _ _ _ =>
            ⟨first, List.forall_mem_nil _⟩)
      · exact .map ((declaration_ensures scanned (scanned.knot (least + 1)).expressions
            (Nat.le_refl _) _).imp fun _ _ obeys => ⟨first, obeys⟩)
    refine .withReference (entry.located.imp fun found stop facts => ?_)
    obtain ⟨span, offside, obeys⟩ := facts
    rw [← span] at offside
    exact .intro ⟨trivial, trivial, offside, trivial, trivial, trivial⟩ obeys

/-! ## Whole sources -/

omit scanned in
/-- Comments between declarations obey the laws. -/
theorem commentEntries_obey (comments : Located Comments) :
    ∀ entry ∈ commentEntries comments, input.Obeys 1 (.entry entry) :=
  List.forall_mem_map.mpr fun _ _ =>
    .intro ⟨trivial, trivial, trivial, trivial, trivial, trivial⟩ (List.forall_mem_nil _)

/-- Declarations obey the laws. -/
theorem declarationsUpTo_ensures (bound : Nat) (start : Cursor) :
    Ensures input levels least least start (declarationsUpTo bound) fun found _ =>
      ∀ entry ∈ found, input.Obeys 1 (.entry entry) := by
  induction bound generalizing start with
  | zero =>
    intro level values stop run
    cases run
  | succ bound ih =>
    have next : Ensures input levels least least start peek fun _ stop => stop = start := by
      intro level token stop run
      rw [(peek_done run).2]
      exact ⟨level, rfl⟩
    refine .bind next fun token stop same => ?_
    subst same
    split
    · exact .pure (List.forall_mem_nil _)
    · refine .bind (topLevel_ensures scanned).stay fun entry _ obeys => ?_
      refine .bind (whitespace_ensures scanned).located fun comments _ _ => ?_
      refine .map ((ih _).imp fun rest _ others => List.forall_mem_cons.mpr ⟨obeys, ?_⟩)
      exact List.forall_mem_append.mpr ⟨commentEntries_obey comments, others⟩

/-- Everything in a module obeys the laws. -/
theorem module_obeys {module : Module} {stop : Cursor}
    (run : Grammar.module input .start = .done module stop) :
    ∀ entry ∈ module.body, input.Obeys 1 (.entry entry) := by
  obtain ⟨initial, afterInitial, runInitial, run⟩ := bind_done.mp run
  obtain ⟨header, afterHeader, runHeader, run⟩ := bind_done.mp run
  obtain ⟨pending, afterPending, runPending, run⟩ := bind_done.mp run
  obtain ⟨⟨imports, last⟩, afterImports, runImports, run⟩ := bind_done.mp run
  obtain ⟨declarations, afterDeclarations, runDeclarations, run⟩ := bind_done.mp run
  obtain ⟨_, _, -, made⟩ := bind_done.mp run
  obtain ⟨rfl, rfl⟩ := Outcome.done.inj made
  have place₁ := (whitespace_fills scanned _ scanned.at_start _ _ runInitial).1
  have place₂ := ((moduleHeader_fills scanned).optional _ place₁ _ _ runHeader).1
  have place₃ := (locatedWhitespace_fills scanned _ place₂ _ _ runPending).1
  have place₄ := (importsUpTo_fills scanned _ _ _ place₃ _ _ runImports).1
  obtain ⟨-, obey⟩ := declarationsUpTo_ensures scanned _ afterImports
    ⟨place₄, rfl, Nat.zero_le _⟩ _ _ runDeclarations
  exact List.forall_mem_append.mpr ⟨commentEntries_obey last, obey⟩

/-- What is read alone obeys the laws, measured from the first token that is no comment. -/
theorem whole_obeys {parser : Parser α} {span : α → Span} {part : α → Part} {shape : α → Prop}
    (builds : Builds input 0 parser span part shape) {found : Commented α} {stop : Cursor}
    (run : whole parser input .start = .done found stop) :
    ∃ first, solidFrom input.tokens.toList .start = some first ∧
      input.Obeys first.span.start.column (part found.value) := by
  obtain ⟨before, begun, runBefore, run⟩ := bind_done.mp run
  obtain ⟨value, _, runValue, run⟩ := bind_done.mp run
  obtain ⟨after, _, -, run⟩ := bind_done.mp run
  obtain ⟨_, _, -, made⟩ := bind_done.mp run
  obtain ⟨rfl, rfl⟩ := Outcome.done.inj made
  have level : input.Level [] 0 .start := ⟨scanned.at_start, rfl, Nat.le_refl _⟩
  obtain ⟨level', -, first, found, starts⟩ :=
    whitespace_ensures scanned level before begun runBefore
  have inside : Ensures input [] 0 0 begun (withReference parser) fun value _ =>
      input.Obeys begun.position.column (part value) :=
    .withReference ((builds _ 0 _ (Nat.le_refl _)).stay.imp fun _ _ facts => facts.2.1)
  refine ⟨first, found, ?_⟩
  rw [starts]
  exact (inside level' value _ runValue).2

end Declarations

end Marginalia
