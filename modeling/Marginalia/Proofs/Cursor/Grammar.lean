import Marginalia.Grammar.Module
import Marginalia.Proofs.Cursor.Steady

/-!
# The rules of the grammar are steady

Every rule is put together from combinators, so instance search finds that it is steady wherever the
rules it uses are. What remains to be shown is that a bound or a number of levels taken from the
input makes no difference, and where a rule goes on differently for different values.
-/

namespace Marginalia.Grammar
open Marginalia.Parser

variable {α ω : Type}

/-! ## Words -/

instance lowerName_steady : Steady lowerName := by unfold lowerName; infer_instance

instance upperName_steady : Steady upperName := by unfold upperName; infer_instance

instance dot_steady : Steady dot := by unfold dot; infer_instance

instance dottedUpperNames_steady : Steady dottedUpperNames := by
  unfold dottedUpperNames
  infer_instance

instance dottedLowerName_steady : Steady dottedLowerName := by
  unfold dottedLowerName
  infer_instance

instance qualifiedUpperName_steady : Steady qualifiedUpperName := by
  unfold qualifiedUpperName
  infer_instance

instance nameReference_steady : Steady nameReference := by
  unfold nameReference
  have qualified (first : Text) (rest : List Text) : Steady (do
      match ← optional dottedLowerName with
      | some name => return Reference.value ⟨first :: rest, name⟩
      | none => return .tag (.ofParts first rest)) :=
    .bind inferInstance fun found => by split <;> infer_instance
  infer_instance

instance operatorSymbol_steady : Steady operatorSymbol := by unfold operatorSymbol; infer_instance

instance infixOperator_steady : Steady infixOperator := by unfold infixOperator; infer_instance

instance parenthesizedOperator_steady : Steady parenthesizedOperator := by
  unfold parenthesizedOperator; infer_instance

instance literal_steady : Steady literal := by
  unfold literal
  refine .bind inferInstance fun token => ?_
  split
  · infer_instance
  · infer_instance
  · split <;> infer_instance

section Items

variable (item : Parser α) [Steady item]

instance spacedItem_steady : Steady (spacedItem item) := by unfold spacedItem; infer_instance

instance spaced_steady : Steady (spaced item) := by unfold spaced; infer_instance

instance spacedArgument_steady : Steady (spacedArgument item) := by
  unfold spacedArgument
  infer_instance

instance link_steady (connective : Parser Token) [Steady connective] :
    Steady (link connective item) := by
  unfold link; infer_instance

instance joined_steady (connective : Parser Token) [Steady connective] :
    Steady (joined connective item) := by
  unfold joined; infer_instance

end Items

/-! ## Patterns -/

instance recordPattern_steady : Steady recordPattern := by
  unfold recordPattern
  refine .bind inferInstance fun ⟨contents, _⟩ => ?_
  dsimp only
  split <;> infer_instance

instance patternOf_steady (node : Parser (PatternNode Pattern)) [Steady node] :
    Steady (patternOf node) := by
  unfold patternOf; infer_instance

instance wordPattern_steady : Steady wordPattern := by unfold wordPattern; infer_instance

instance aliasKeyword_steady : Steady aliasKeyword := by unfold aliasKeyword; infer_instance

section Patterns

variable (pattern : Parser Pattern) [Steady pattern]

instance tuplePattern_steady : Steady (tuplePattern pattern) := by
  unfold tuplePattern
  refine .bind inferInstance fun ⟨contents, _⟩ => ?_
  dsimp only
  split <;> infer_instance

instance listPattern_steady : Steady (listPattern pattern) := by
  unfold listPattern
  refine .bind inferInstance fun ⟨contents, _⟩ => ?_
  dsimp only
  split <;> infer_instance

instance patternTermOver_steady : Steady (patternTermOver pattern) := by
  unfold patternTermOver
  infer_instance

instance patternOperand_steady : Steady (patternOperand pattern) := by
  unfold patternOperand
  infer_instance

instance consPattern_steady : Steady (consPattern pattern) := by
  unfold consPattern
  refine .bind inferInstance fun start => .bind inferInstance fun found => ?_
  split <;> infer_instance

instance patternOver_steady : Steady (patternOver pattern) := by
  unfold patternOver
  have continues (start : Position) (pattern : Pattern) : Steady (do
      match ← optional aliasKeyword with
      | none => return pattern
      | some before =>
        let after ← whitespace
        let name ← lowerName
        return ⟨⟨start, ← position⟩, .named (.post pattern before) (.pre after name)⟩) :=
    .bind inferInstance fun found => by split <;> infer_instance
  infer_instance

end Patterns

instance patternTermWithin_steady (levels : Nat) : Steady (patternTermWithin levels) := by
  induction levels with
  | zero => unfold patternTermWithin; infer_instance
  | succ levels ih => unfold patternTermWithin; infer_instance

instance patternTerm_steady : Steady patternTerm :=
  .bounded patternTermWithin_steady Input.nestingLimit

instance pattern_steady : Steady pattern := by unfold pattern; infer_instance

/-! ## Types -/

instance typeOf_steady (node : Parser (TypeNode TypeExpression)) [Steady node] :
    Steady (typeOf node) := by
  unfold typeOf; infer_instance

instance recordBase_steady : Steady recordBase := by unfold recordBase; infer_instance

section Types

variable (type : Parser TypeExpression) [Steady type]

instance tupleType_steady : Steady (tupleType type) := by
  unfold tupleType
  refine .bind inferInstance fun ⟨contents, _⟩ => ?_
  dsimp only
  split <;> infer_instance

instance recordTypeField_steady : Steady (recordTypeField type) := by
  unfold recordTypeField
  infer_instance

instance recordType_steady : Steady (recordType type) := by
  unfold recordType
  infer_instance

instance typeTermOver_steady : Steady (typeTermOver type) := by unfold typeTermOver; infer_instance

instance typeOperand_steady : Steady (typeOperand type) := by unfold typeOperand; infer_instance

instance typeOver_steady : Steady (typeOver type) := by
  unfold typeOver
  have whole : Steady (do
      let start ← position
      match ← trackNewline (joined (token .arrow "'->'") (typeOperand type)) with
      | ((first, []), _) => return first.value
      | ((first, rest), multiline) =>
        return ⟨⟨start, ← position⟩, .function first rest multiline⟩) :=
    .bind inferInstance fun start => .bind inferInstance fun found => by split <;> infer_instance
  infer_instance

end Types

instance typeTermWithin_steady (levels : Nat) : Steady (typeTermWithin levels) := by
  induction levels with
  | zero => unfold typeTermWithin; infer_instance
  | succ levels ih => unfold typeTermWithin; infer_instance

instance typeTerm_steady : Steady typeTerm := .bounded typeTermWithin_steady Input.nestingLimit

instance typeExpression_steady : Steady typeExpression := by unfold typeExpression; infer_instance

/-! ## Chains -/

section Chains

variable (term last : Parser α) [Steady term] [Steady last] (operator : Parser ω) [Steady operator]

instance chainClause_steady : Steady (chainClause term last operator) := by
  unfold chainClause
  infer_instance

instance chainStep_steady : Steady (chainStep term last operator) := by
  unfold chainStep
  infer_instance

instance clausesUpTo_steady (bound : Nat) : Steady (clausesUpTo term last operator bound) := by
  induction bound with
  | zero => unfold clausesUpTo; infer_instance
  | succ bound ih =>
    unfold clausesUpTo
    refine .bind inferInstance fun found => ?_
    split <;> infer_instance

instance clauses_steady : Steady (clauses term last operator) :=
  .bounded (clausesUpTo_steady term last operator) Input.repetitionLimit

instance operatorChain_steady : Steady (operatorChain term last operator) := by
  unfold operatorChain
  infer_instance

end Chains

/-! ## Terms -/

instance expressionOf_steady (node : Parser (ExpressionNode Expression)) [Steady node] :
    Steady (expressionOf node) := by unfold expressionOf; infer_instance

instance literalTerm_steady : Steady literalTerm := by unfold literalTerm; infer_instance

instance nameTerm_steady : Steady nameTerm := by unfold nameTerm; infer_instance

instance accessorTerm_steady : Steady accessorTerm := by unfold accessorTerm; infer_instance

instance fieldAccess_steady : Steady fieldAccess := by unfold fieldAccess; infer_instance

instance shaderTerm_steady : Steady shaderTerm := by unfold shaderTerm; infer_instance

instance operatorTerm_steady : Steady operatorTerm := by unfold operatorTerm; infer_instance

instance tupleFunctionTerm_steady : Steady tupleFunctionTerm := by
  unfold tupleFunctionTerm
  infer_instance

section Expressions

variable (expression : Parser Expression) [Steady expression]

instance negationTerm_steady : Steady (negationTerm expression) := by
  unfold negationTerm
  infer_instance

instance accessible_steady : Steady (accessible expression) := by unfold accessible; infer_instance

instance rangeTerm_steady : Steady (rangeTerm expression) := by
  unfold rangeTerm
  infer_instance

instance listTerm_steady : Steady (listTerm expression) := by
  unfold listTerm
  infer_instance

instance bracketTerm_steady : Steady (bracketTerm expression) := by
  unfold bracketTerm
  infer_instance

instance tupleTerm_steady : Steady (tupleTerm expression) := by
  unfold tupleTerm
  have node : Steady (do
      let (contents, multiline) ← group .leftParen .rightParen expression "')'"
      match contents.items with
      | [] => return .unit contents.trailing
      | [only] => return .parens only
      | elements => return .tuple elements multiline : Parser (ExpressionNode Expression)) := by
    refine .bind inferInstance fun found => ?_
    dsimp only
    split <;> infer_instance
  infer_instance

instance parensTerm_steady : Steady (parensTerm expression) := by unfold parensTerm; infer_instance

instance recordPair_steady : Steady (recordPair expression) := by unfold recordPair; infer_instance

instance recordTerm_steady : Steady (recordTerm expression) := by unfold recordTerm; infer_instance

instance termOver_steady (term : Parser Expression) [Steady term] :
    Steady (termOver expression term) := by
  unfold termOver; infer_instance

/-! ## Expressions -/

instance application_steady : Steady (application expression) := by
  unfold application
  have applied : Steady (do
      let start ← position
      let (head, headCrossed) ← trackNewline expression
      match ← many (trackNewline (spacedArgument expression)) with
      | [] => return head
      | first :: rest =>
        let layout := applicationLayout headCrossed first.2 (rest.map (·.2))
        return ⟨⟨start, ← position⟩, .application head ((first :: rest).map (·.1)) layout⟩) := by
    refine .bind inferInstance fun start => .bind inferInstance fun head =>
      .bind inferInstance fun found => ?_
    dsimp only
    split <;> infer_instance
  infer_instance

instance chainExpression_steady (last : Parser Expression) [Steady last] :
    Steady (chainExpression expression last) := by
  unfold chainExpression
  refine .bind inferInstance fun chain => ?_
  split <;> infer_instance

instance ifClause_steady : Steady (ifClause expression) := by unfold ifClause; infer_instance

instance elseKeyword_steady : Steady elseKeyword := by unfold elseKeyword; infer_instance

instance elseIfClause_steady : Steady (elseIfClause expression) := by
  unfold elseIfClause
  infer_instance

instance conditional_steady : Steady (conditional expression) := by
  unfold conditional
  infer_instance

instance paddedArrow_steady : Steady paddedArrow := by unfold paddedArrow; infer_instance

instance lambda_steady : Steady (lambda expression) := by unfold lambda; infer_instance

instance branchHead_steady : Steady branchHead := by unfold branchHead; infer_instance

instance branch_steady (leading : Comments) : Steady (branch expression leading) := by
  unfold branch; infer_instance

instance caseDistinction_steady : Steady (caseDistinction expression) := by
  unfold caseDistinction
  have branches (leading : Comments) : Steady (withReference do
      let first ← branch expression leading
      return first :: (← many (branch expression []))) := inferInstance
  infer_instance

instance definitionHead_steady : Steady definitionHead := by
  unfold definitionHead
  have defined (pattern : Pattern) : Steady (match pattern.node with
      | .name _ | .operator _ => do return (pattern, ← spaced patternTerm)
      | _ => return (pattern, [])) := by
    split <;> infer_instance
  infer_instance

instance definition_steady : Steady (definition expression) := by unfold definition; infer_instance

instance signatureHead_steady : Steady signatureHead := by unfold signatureHead; infer_instance

instance signature_steady : Steady signature := by unfold signature; infer_instance

instance declaration_steady : Steady (declaration expression) := by
  unfold declaration
  infer_instance

instance letComments_steady : Steady letComments := by unfold letComments; infer_instance

instance letBlock_steady : Steady (letBlock expression) := by unfold letBlock; infer_instance

instance letExpression_steady : Steady (letExpression expression) := by
  unfold letExpression
  infer_instance

instance openEnded_allSteady : AllSteady (openEnded expression) := by
  unfold openEnded
  infer_instance

instance expressionOver_steady (term : Parser Expression) [Steady term] :
    Steady (expressionOver expression term) := by
  unfold expressionOver; infer_instance

end Expressions

/-- What may stand at any number of levels is steady. -/
theorem Nested.within_steady (levels : Nat) :
    Steady (within levels).expression ∧ Steady (within levels).term := by
  induction levels with
  | zero => exact ⟨interrupt_steady _, interrupt_steady _⟩
  | succ levels ih =>
    obtain ⟨expression, term⟩ := ih
    exact ⟨expressionOver_steady _ _, termOver_steady _ _⟩

instance term_steady : Steady term :=
  .bounded (fun levels => (Nested.within_steady levels).2) Input.nestingLimit

instance expression_steady : Steady expression :=
  .bounded (fun levels => (Nested.within_steady levels).1) Input.nestingLimit

/-! ## Modules -/

instance moduleName_steady : Steady moduleName := by unfold moduleName; infer_instance

instance everything_steady : Steady everything := by unfold everything; infer_instance

instance allConstructors_steady : Steady allConstructors := by
  unfold allConstructors
  infer_instance

instance listedName_steady : Steady listedName := by unfold listedName; infer_instance

instance listing_steady : Steady listing := by
  unfold listing
  refine .bind inferInstance fun _ => .bind inferInstance fun found => ?_
  split <;> infer_instance

instance moduleHeader_steady : Steady moduleHeader := by unfold moduleHeader; infer_instance

instance introduced_steady (word : String) (parser : Parser α) [Steady parser] :
    Steady (introduced word parser) := by
  unfold introduced; infer_instance

instance importDeclaration_steady : Steady importDeclaration := by
  unfold importDeclaration
  infer_instance

instance importsUpTo_steady (bound : Nat) (pending : Located Comments) :
    Steady (importsUpTo bound pending) := by
  induction bound generalizing pending with
  | zero => unfold importsUpTo; infer_instance
  | succ bound ih => unfold importsUpTo; infer_instance

instance fixityDeclaration_steady : Steady fixityDeclaration := by
  unfold fixityDeclaration
  refine .bind inferInstance fun keyword => .bind inferInstance fun comments =>
    .bind inferInstance fun number => ?_
  split <;> infer_instance

instance aliasWord_steady : Steady aliasWord := by unfold aliasWord; infer_instance

instance variant_steady : Steady variant := by unfold variant; infer_instance

instance variantBar_steady : Steady variantBar := by unfold variantBar; infer_instance

instance variantsUpTo_steady (bound : Nat) (before : Comments) :
    Steady (variantsUpTo bound before) := by
  induction bound generalizing before with
  | zero => unfold variantsUpTo; infer_instance
  | succ bound ih =>
    unfold variantsUpTo
    refine .bind inferInstance fun first => .bind inferInstance fun found => ?_
    split <;> infer_instance

instance variants_steady (before : Comments) : Steady (variants before) :=
  .bounded (fun bound => variantsUpTo_steady bound before) Input.repetitionLimit

instance typeDeclaration_steady : Steady typeDeclaration := by
  unfold typeDeclaration
  have declared (aliasComments : Option Comments) (preName : Comments) (name : Text)
    (parameters : List (Commented Text)) (comments : Comments) : Steady (match aliasComments with
        | some preAlias => do
          let type ← typeExpression
          return TopLevel.typeAlias ⟨.pre (preAlias ++ preName) name, parameters,
            .pre comments type⟩
        | none => do
          return .datatype ⟨.pre preName name, parameters, ← variants comments⟩) := by
    split <;> infer_instance
  infer_instance

instance topLevel_steady : Steady topLevel := by unfold topLevel; infer_instance

end Marginalia.Grammar
