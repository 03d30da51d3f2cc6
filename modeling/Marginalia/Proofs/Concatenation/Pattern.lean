import Marginalia.Proofs.Concatenation.Combinators
import Marginalia.Proofs.Lockstep.Word
import Marginalia.Proofs.Totality

/-!
# Words, patterns and types carry over

The rules for words, patterns and types carry over from a shorter input to a longer one. Arguments
are where the runs can part: they have to stand past the reference of indentation, as no declaration
does.
-/

namespace Marginalia.Grammar

open Marginalia.Parser

set_option synthInstance.maxSize 512

variable {α : Type} {s : Sequel} {before ahead atDeclaration : Bool}

/-! ## Words -/

instance lowerName_stops : Stops false false lowerName := by unfold lowerName; infer_instance

instance upperName_stops : Stops false false upperName := by unfold upperName; infer_instance

instance dot_stops : Stops atDeclaration false dot := by unfold dot; infer_instance

instance qualifiedUpperName_stops : Stops false false qualifiedUpperName := by
  unfold qualifiedUpperName
  infer_instance

instance nameReference_stops : Stops false false nameReference := by
  unfold nameReference
  infer_instance

instance operatorSymbol_stops : Stops atDeclaration false operatorSymbol := by
  unfold operatorSymbol
  infer_instance

instance infixOperator_stops : Stops atDeclaration false infixOperator := by
  unfold infixOperator
  infer_instance

instance parenthesizedOperator_stops : Stops false false parenthesizedOperator := by
  unfold parenthesizedOperator; infer_instance

/-- A literal is a number, a string or a character. -/
theorem isLiteral_cases {token : Token}
    (holds : (token.kind == .number || token.kind == .string || token.kind == .char) = true) :
    token.kind = .number ∨ token.kind = .string ∨ token.kind = .char := by
  simpa [or_assoc] using holds

instance literal_stops : Stops false false literal := by
  have word (label : String) : Stops false false (satisfy (fun token =>
        token.kind == .number || token.kind == .string || token.kind == .char) label) := by
    refine .satisfy label (fun token holds ends => ?_) nofun
    rcases isLiteral_cases holds with same | same | same <;> rw [ends] at same <;> cases same
  unfold literal
  infer_instance

instance lowerName_carries : Carries s before (.within false) .reads lowerName lowerName := by
  unfold lowerName; infer_instance

instance upperName_carries : Carries s before (.within false) .reads upperName upperName := by
  unfold upperName; infer_instance

instance dot_carries : Carries s before (.within true) .reads dot dot := by
  unfold dot
  infer_instance

instance dottedUpperNames_carries :
    Carries s before (.within false) .stays dottedUpperNames dottedUpperNames := by
  unfold dottedUpperNames; infer_instance

instance dottedLowerName_carries :
    Carries s before (.within false) .reads dottedLowerName dottedLowerName := by
  unfold dottedLowerName; infer_instance

instance qualifiedUpperName_carries :
    Carries s before (.within false) .reads qualifiedUpperName qualifiedUpperName := by
  unfold qualifiedUpperName; infer_instance

instance nameReference_carries :
    Carries s before (.within false) .reads nameReference nameReference := by
  unfold nameReference
  have qualified (first : Text) (rest : List Text) : Carries s false (.within false) .stays (do
      match ← optional dottedLowerName with
      | some name => return Reference.value ⟨first :: rest, name⟩
      | none => return .tag (.ofParts first rest)) (do
      match ← optional dottedLowerName with
      | some name => return Reference.value ⟨first :: rest, name⟩
      | none => return .tag (.ofParts first rest)) :=
    .bindStays inferInstance fun found => by split <;> infer_instance
  infer_instance

instance operatorSymbol_carries :
    Carries s before (.within true) .reads operatorSymbol operatorSymbol := by
  unfold operatorSymbol; infer_instance

instance infixOperator_carries :
    Carries s before (.within true) .reads infixOperator infixOperator := by
  unfold infixOperator; infer_instance

instance parenthesizedOperator_carries :
    Carries s before (.within false) .reads parenthesizedOperator parenthesizedOperator := by
  unfold parenthesizedOperator; infer_instance

instance literal_carries : Carries s before (.within false) .reads literal literal := by
  have word (label : String) :
      Carries s before (.within false) .reads (satisfy (fun token => token.kind == .number ||
        token.kind == .string || token.kind == .char) label) (satisfy (fun token =>
        token.kind == .number || token.kind == .string || token.kind == .char) label) := by
    have notWord :
        ∀ token : Token, (token.kind == .number || token.kind == .string || token.kind == .char) =
          true → token.kind ≠ .keyword ∧ token.kind ≠ .eof := by
      intro token holds
      rcases isLiteral_cases holds with same | same | same <;> rw [same] <;> decide
    exact .satisfy label (fun token holds => (notWord token holds).2)
      (fun token holds => (Token.plain_of_kind (notWord token holds).1).1)
      (fun token holds => (Token.plain_of_kind (notWord token holds).1).2) nofun
  unfold literal
  refine .bindReads (word _) fun token => (?_ : Carries s false (.within false) .stays _ _)
  split
  · infer_instance
  · infer_instance
  · split
    · infer_instance
    · exact ⟨fun _ _ => .cut⟩

/-! ## Arguments -/

section Arguments

variable (p q : Parser α) [∀ before, Carries s before (.within false) .reads p q] [Barren p]
  [Stops false false q]

instance spacedItem_carries :
    Carries s before (.within false) .stays (spacedItem p) (spacedItem q) :=
  .of_free (by unfold spacedItem; infer_instance)

instance isMinus_carries :
    Carries s before (.within before) .stays (peekThat isMinus) (peekThat isMinus) := by
  refine .peekThat fun token holds ends => ?_
  rw [isMinus, ends] at holds
  cases holds

/-- No minus sign stands where two runs have parted, so what comes after a test for one misses if it
does without one. -/
instance argument_misses (f g : Position → Bool → Parser α)
    [misses : ∀ stop stop', Misses s (f stop false) (g stop' false)] :
    Misses s (position >>= fun stop => peekThat isMinus >>= f stop)
      (position >>= fun stop => peekThat isMinus >>= g stop) where
  misses {levels l r} parted := by
    have none (token : Token) (place : token.kind = .eof ∨ token.Begins) :
        isMinus token = false := by
      refine Bool.eq_false_iff.mpr fun holds => ?_
      have kind : token.kind = .operator := beq_iff_eq.mp (Bool.and_eq_true_iff.mp holds).1
      rcases place with ends | begins
      · rw [ends] at kind
        cases kind
      · refine begins.apart (.inl ?_)
        rw [kind]
        rfl
    have found : s.short.tokenAt? l.index = some ⟨.eof, [], ⟨s.stop, s.stop⟩⟩ := by
      rw [parted.left]
      exact s.tokenAt?_count
    have left : (position >>= fun stop => peekThat isMinus >>= f stop) s.short l =
          f l.position false s.short l := by
      show (peekThat isMinus >>= f l.position) s.short l = _
      rw [bind_apply, peekThat_apply, found]
      simp only [none ⟨.eof, [], ⟨s.stop, s.stop⟩⟩ (.inl rfl), Bool.and_false]
    have right : (position >>= fun stop => peekThat isMinus >>= g stop) s.long r =
          g r.position false s.long r := by
      show (peekThat isMinus >>= g r.position) s.long r = _
      rw [bind_apply, peekThat_apply, tokenAt?_of_parted parted]
      simp only [none _ (s.begins.imp id And.left), Bool.and_false]
    rw [left, right]
    exact (misses _ _).misses parted

instance spacedArgument_carries :
    Carries s before (.within false) .stays (spacedArgument p) (spacedArgument q) := by
  have misses (start start' : Position) (comments comments' : Comments) : Misses s
      (position >>= fun stop => peekThat isMinus >>= fun minus =>
        if stop.offset == start.offset && minus then fail ["whitespace"]
        else indented >>= fun _ => p >>= fun value => pure (Commented.pre comments value))
      (position >>= fun stop => peekThat isMinus >>= fun minus =>
        if stop.offset == start'.offset && minus then fail ["whitespace"]
        else indented >>= fun _ => q >>= fun value => pure (Commented.pre comments' value)) := by
    have rest (stop stop' : Position) : Misses s
        (if stop.offset == start.offset && false then fail ["whitespace"]
          else indented >>= fun _ => p >>= fun value => pure (Commented.pre comments value))
        (if stop'.offset == start'.offset && false then fail ["whitespace"]
          else indented >>= fun _ => q >>= fun value => pure (Commented.pre comments' value)) := by
      simp only [Bool.and_false, Bool.false_eq_true, if_false]
      infer_instance
    exact argument_misses _ _
  rw [spacedArgument_eq, spacedArgument_eq]
  refine .of_free (?_ : Carries s false _ _ _ _)
  infer_instance

instance spaced_carries : Carries s before (.within false) .stays (spaced p) (spaced q) := by
  unfold spaced; infer_instance

end Arguments

/-! ## Connectives -/

section Joined

variable (connective : Parser Token)
  [∀ before, Carries s before (.within true) .reads connective connective]
  [Stops true false connective] (p q : Parser α)
  [∀ before, Carries s before (.within false) .reads p q]

instance link_carries :
    Carries s before (.within false) .stays (link connective p) (link connective q) :=
  .of_free (by unfold link; infer_instance)

instance joined_carries :
    Carries s before (.within false) .reads (joined connective p) (joined connective q) := by
  unfold joined; infer_instance

end Joined

/-! ## Patterns -/

instance group_stops (openingKind close : TokenKind) [openingKind.Opening] (item : Parser α)
    (label : String) : Stops false false (group openingKind close item label) := by
  unfold group
  infer_instance

instance recordPattern_stops : Stops false false recordPattern := by
  unfold recordPattern
  infer_instance

instance tuplePattern_stops (pattern : Parser Pattern) :
    Stops false false (tuplePattern pattern) := by
  unfold tuplePattern; infer_instance

instance listPattern_stops (pattern : Parser Pattern) :
    Stops false false (listPattern pattern) := by
  unfold listPattern; infer_instance

instance wordPattern_stops : Stops false false wordPattern := by unfold wordPattern; infer_instance

instance patternOf_stops (node : Parser (PatternNode Pattern)) [Stops atDeclaration false node] :
    Stops atDeclaration false (patternOf node) := by unfold patternOf; infer_instance

instance patternTermOver_stops (pattern : Parser Pattern) :
    Stops false false (patternTermOver pattern) := by
  unfold patternTermOver; infer_instance

instance recordPattern_carries :
    Carries s before (.within false) .reads recordPattern recordPattern := by
  unfold recordPattern
  refine .bindReads inferInstance fun ⟨contents, _⟩ =>
    (?_ : Carries s false (.within false) .stays _ _)
  dsimp only
  split
  · exact (fail_carries _ _).toStays
  · infer_instance

instance patternOf_carries (p q : Parser (PatternNode Pattern))
    [Carries s before (.within ahead) .reads p q] :
    Carries s before (.within ahead) .reads (patternOf p) (patternOf q) := by
  unfold patternOf
  infer_instance

instance wordPattern_carries : Carries s before (.within false) .reads wordPattern wordPattern := by
  unfold wordPattern; infer_instance

instance aliasKeyword_carries : Carries s before (.within true) .stays aliasKeyword aliasKeyword :=
  .of_free (by unfold aliasKeyword; infer_instance)

section Patterns

variable (p q : Parser Pattern) [∀ before, Carries s before (.within false) .reads p q]

instance tuplePattern_carries :
    Carries s before (.within false) .reads (tuplePattern p) (tuplePattern q) := by
  unfold tuplePattern
  refine .bindReads inferInstance fun ⟨contents, _⟩ =>
    (?_ : Carries s false (.within false) .stays _ _)
  dsimp only
  split <;> infer_instance

instance listPattern_carries :
    Carries s before (.within false) .reads (listPattern p) (listPattern q) := by
  unfold listPattern
  refine .bindReads inferInstance fun ⟨contents, _⟩ =>
    (?_ : Carries s false (.within false) .stays _ _)
  dsimp only
  split <;> infer_instance

instance patternTermOver_carries :
    Carries s before (.within false) .reads (patternTermOver p) (patternTermOver q) := by
  unfold patternTermOver; infer_instance

variable [Barren p] [Stops false false q]

instance patternOperand_carries :
    Carries s before (.within false) .reads (patternOperand p) (patternOperand q) := by
  unfold patternOperand; infer_instance

instance consPattern_carries :
    Carries s before (.within false) .reads (consPattern p) (consPattern q) := by
  unfold consPattern
  refine .bindStays inferInstance fun start => .bindReads inferInstance fun found =>
    (?_ : Carries s false (.within false) .stays _ _)
  split <;> infer_instance

instance patternOver_carries :
    Carries s before (.within false) .reads (patternOver p) (patternOver q) := by
  unfold patternOver
  have continues (start : Position) (pattern : Pattern) : Carries s false (.within false) .stays (do
      match ← optional aliasKeyword with
      | none => return pattern
      | some before =>
        let after ← whitespace
        let name ← lowerName
        return ⟨⟨start, ← position⟩, .named (.post pattern before) (.pre after name)⟩) (do
      match ← optional aliasKeyword with
      | none => return pattern
      | some before =>
        let after ← whitespace
        let name ← lowerName
        return ⟨⟨start, ← position⟩, .named (.post pattern before) (.pre after name)⟩) := by
    refine .bindOptional aliasKeyword_carries (fun before => ?_) inferInstance
    exact .bindStays whitespaceAhead_carries fun after => Carries.toStays inferInstance
  infer_instance

end Patterns

/-! ### All patterns -/

section Knot

variable {input : Input} {cursor : Cursor}

/-- A term of a pattern is read by the rule for terms over patterns. -/
theorem patternTerm_eq (scanned : input.Scanned) (place : input.At cursor) :
    patternTerm input cursor = patternTermOver pattern input cursor := by
  have limit := Correspondence.Steps.size_lt_nestingLimit input
  have inner : (diagonal scanned).Steps (input.tokens.size - 1) 1 Pattern.view
      (patternTermWithin (input.tokens.size + 1)) patternTerm := fun l r along within =>
    patternTermWithin_steps _ _ _ (by omega) (by omega) l r along within
  exact eq_of_steps scanned Pattern.view_full (patternTermOver_steps (patternOver_steps inner))
    place (Nat.sub_le _ _)

/-- A term of a type is read by the rule for terms over types. -/
theorem typeTerm_eq (scanned : input.Scanned) (place : input.At cursor) :
    typeTerm input cursor = typeTermOver typeExpression input cursor := by
  have limit := Correspondence.Steps.size_lt_nestingLimit input
  have inner : (diagonal scanned).Steps (input.tokens.size - 1) 1 TypeExpression.view
      (typeTermWithin (input.tokens.size + 1)) typeTerm := fun l r along within =>
    typeTermWithin_steps _ _ _ (by omega) (by omega) l r along within
  exact eq_of_steps scanned TypeExpression.view_full (typeTermOver_steps (typeOver_steps inner))
    place (Nat.sub_le _ _)

end Knot

instance patternTermWithin_barren (levels : Nat) : Barren (patternTermWithin levels) := by
  cases levels <;> unfold patternTermWithin <;> infer_instance

instance patternTerm_stops : Stops false false patternTerm :=
  ⟨fun found place => (patternTermOver_stops _).stays found place⟩

/-- Terms of patterns carry at every depth, and without a bound on it. -/
theorem patternTermWithin_carries (levels : Nat) :
    Carries s before (.within false) .reads (patternTermWithin levels) patternTerm := by
  induction levels generalizing before with
  | zero => exact ⟨fun _ _ => .cut⟩
  | succ levels ih =>
    have inner (before : Bool) :
        Carries s before (.within false) .reads (patternTermWithin levels) patternTerm := ih
    have outer : Carries s before (.within false) .reads (patternTermOver (patternOver
          (patternTermWithin levels))) (patternTermOver (patternOver patternTerm)) := inferInstance
    exact outer.rewrite fun place => patternTerm_eq s.scannedLong place

instance patternTerm_carries : Carries s before (.within false) .reads patternTerm patternTerm :=
  ⟨fun ready ahead => (patternTermWithin_carries s.short.nestingLimit).meets ready ahead⟩

instance pattern_carries : Carries s before (.within false) .reads pattern pattern := by
  unfold pattern
  infer_instance

/-! ## Types -/

instance typeOf_stops (node : Parser (TypeNode TypeExpression)) [Stops atDeclaration false node] :
    Stops atDeclaration false (typeOf node) := by unfold typeOf; infer_instance

instance tupleType_stops (type : Parser TypeExpression) : Stops false false (tupleType type) := by
  unfold tupleType; infer_instance

instance recordType_stops (type : Parser TypeExpression) : Stops false false (recordType type) := by
  unfold recordType; infer_instance

instance typeTermOver_stops (type : Parser TypeExpression) :
    Stops false false (typeTermOver type) := by
  unfold typeTermOver; infer_instance

instance typeOf_carries (p q : Parser (TypeNode TypeExpression))
    [Carries s before (.within ahead) .reads p q] :
    Carries s before (.within ahead) .reads (typeOf p) (typeOf q) := by
  unfold typeOf
  infer_instance

instance recordBase_carries : Carries s true (.within true) .reads recordBase recordBase := by
  unfold recordBase padded; infer_instance

section Types

variable (p q : Parser TypeExpression) [∀ before, Carries s before (.within false) .reads p q]

instance tupleType_carries :
    Carries s before (.within false) .reads (tupleType p) (tupleType q) := by
  unfold tupleType
  refine .bindReads inferInstance fun ⟨contents, _⟩ =>
    (?_ : Carries s false (.within false) .stays _ _)
  dsimp only
  split <;> infer_instance

instance recordTypeField_carries :
    Carries s before (.within false) .reads (recordTypeField p) (recordTypeField q) := by
  unfold recordTypeField; infer_instance

instance recordType_carries :
    Carries s before (.within false) .reads (recordType p) (recordType q) := by
  unfold recordType; infer_instance

instance typeTermOver_carries :
    Carries s before (.within false) .reads (typeTermOver p) (typeTermOver q) := by
  unfold typeTermOver; infer_instance

variable [Barren p] [Stops false false q]

instance typeOperand_carries :
    Carries s before (.within false) .reads (typeOperand p) (typeOperand q) := by
  unfold typeOperand; infer_instance

instance typeOver_carries : Carries s before (.within false) .reads (typeOver p) (typeOver q) := by
  unfold typeOver
  have made (start : Position) : Carries s before (.within false) .reads (do
      match ← trackNewline (joined (token .arrow "'->'") (typeOperand p)) with
      | ((first, []), _) => return first.value
      | ((first, rest), multiline) =>
        return ⟨⟨start, ← position⟩, .function first rest multiline⟩) (do
      match ← trackNewline (joined (token .arrow "'->'") (typeOperand q)) with
      | ((first, []), _) => return first.value
      | ((first, rest), multiline) =>
        return ⟨⟨start, ← position⟩, .function first rest multiline⟩) := by
    refine .bindReads inferInstance fun found => (?_ : Carries s false (.within false) .stays _ _)
    split <;> infer_instance
  infer_instance

end Types

instance typeTermWithin_barren (levels : Nat) : Barren (typeTermWithin levels) := by
  cases levels <;> unfold typeTermWithin <;> infer_instance

instance typeTerm_stops : Stops false false typeTerm :=
  ⟨fun found place => (typeTermOver_stops _).stays found place⟩

/-- Terms of types carry at every depth, and without a bound on it. -/
theorem typeTermWithin_carries (levels : Nat) :
    Carries s before (.within false) .reads (typeTermWithin levels) typeTerm := by
  induction levels generalizing before with
  | zero => exact ⟨fun _ _ => .cut⟩
  | succ levels ih =>
    have inner (before : Bool) :
        Carries s before (.within false) .reads (typeTermWithin levels) typeTerm := ih
    have outer : Carries s before (.within false) .reads (typeTermOver
          (typeOver (typeTermWithin levels))) (typeTermOver (typeOver typeTerm)) := inferInstance
    exact outer.rewrite fun place => typeTerm_eq s.scannedLong place

instance typeTerm_carries : Carries s before (.within false) .reads typeTerm typeTerm :=
  ⟨fun ready ahead => (typeTermWithin_carries s.short.nestingLimit).meets ready ahead⟩

instance typeExpression_carries :
    Carries s before (.within false) .reads typeExpression typeExpression := by
  unfold typeExpression; infer_instance

end Marginalia.Grammar
