import Marginalia.Grammar.Module
import Marginalia.Proofs.Tiling.Expression

/-!
# Laying out modules

Every rule of the grammar of modules lays out what it makes: names, listings and fixities as
nothing, declarations as the types, patterns and expressions in them, and each constructor of a type
as a node.
-/

namespace Marginalia.Grammar

open Marginalia.Parser

variable {α : Type} {input : Input} {origin : Cursor} (scanned : input.Scanned)

include scanned

/-! ## Header and imports -/

/-- The name of a module is laid out as nothing. -/
theorem moduleName_solid : Solid input moduleName fun _ => [] :=
  fun origin => .bind (qualifiedUpperName_solid scanned origin) fun _ => .pure fun _ => rfl

/-- The mark of a listing of everything is laid out as nothing. -/
theorem everything_lays : Lays input origin [] .ended .ended everything (outlined fun _ => []) := by
  apply Lays.attempt
  apply Lays.bind (whitespace_lays scanned)
  intro before
  apply Lays.bind (token_lays scanned (by decide) _)
  intro _
  apply Lays.bind (whitespace_lays scanned)
  intro after
  apply Lays.bind (token_lays scanned (by decide) _)
  intro _
  exact .pure fun _ => rfl

/-- The mark of all constructors is laid out as nothing. -/
theorem allConstructors_lays :
    Lays input origin [] .ended .ended allConstructors (outlined fun _ => []) := by
  apply Lays.attempt
  apply Lays.bind (whitespace_lays scanned)
  intro comments
  apply Lays.bind (token_lays scanned (by decide) _)
  intro _
  apply Lays.bind (token_lays scanned (by decide) _)
  intro _
  apply Lays.bind (token_lays scanned (by decide) _)
  intro _
  exact .pure fun _ => rfl

/-- A name in a listing is laid out as nothing. -/
theorem listedName_solid : Solid input listedName fun _ => [] := by
  intro origin
  apply Lays.choiceAfter
  simp only [List.forall_mem_cons, List.not_mem_nil, false_imp_iff, implies_true, and_true]
  refine ⟨?_, ?_, ?_⟩
  · apply Lays.bind (lowerName_solid scanned origin)
    intro name
    exact .pure fun _ => rfl
  · apply Lays.bind (parenthesizedOperator_solid scanned origin)
    intro symbol
    exact .pure fun _ => rfl
  · apply Lays.bind (upperName_solid scanned origin)
    intro name
    apply Lays.bind (allConstructors_lays scanned).optional
    intro all
    exact .pure fun _ => by cases all <;> rfl

/-- A listing is laid out as nothing. -/
theorem listing_solid : Solid input listing fun _ => [] := by
  intro origin
  apply Lays.bind (token_lays scanned (by decide) _)
  intro _
  apply Lays.bind (everything_lays scanned).optional
  intro all
  cases all with
  | some comments => exact .pure fun _ => rfl
  | none =>
    apply Lays.bind (separated_lays scanned (listedName_solid scanned) (by decide) _)
    intro contents
    exact .pure fun _ => by simp [outlined]

/-- What stands in a header is laid out as nothing. -/
theorem headerParts_solid :
    Solid input
      (do
        let _ ← keyword "module"
        let preName ← whitespace
        let name ← moduleName
        let postName ← whitespace
        let _ ← keyword "exposing"
        let preListing ← whitespace
        return (⟨⟨preName, name, postName⟩, .pre preListing (← listing)⟩ : ModuleHeader))
      fun _ => [] := by
  intro origin
  apply Lays.bind (keyword_lays scanned "module")
  intro _
  apply Lays.bind (whitespace_lays scanned)
  intro preName
  apply Lays.bind ((moduleName_solid scanned).lays _)
  intro name
  apply Lays.bind (whitespace_lays scanned)
  intro postName
  apply Lays.bind (keyword_lays scanned "exposing")
  intro _
  apply Lays.bind (whitespace_lays scanned)
  intro preListing
  apply Lays.bind ((listing_solid scanned).lays _)
  intro listing
  exact .pure fun _ => rfl

/-- What a word introduces is laid out as nothing, if it is so itself. -/
theorem introduced_lays {parser : Parser α}
    (solid : Solid input parser fun _ => []) (word : String) :
    Lays input origin [] .ended .ended (introduced word parser) (outlined fun _ => []) := by
  apply Lays.attempt
  apply Lays.bind (whitespace_lays scanned)
  intro before
  apply Lays.bind (keyword_lays scanned word)
  intro _
  apply Lays.bind (whitespace_lays scanned)
  intro after
  apply Lays.bind (solid.lays _)
  intro value
  exact .pure fun _ => rfl

/-- What stands in an import is laid out as nothing. -/
theorem importParts_solid :
    Solid input
      (do
        let _ ← keyword "import"
        let preName ← whitespace
        let name ← moduleName
        let qualifier ← optional (introduced "as" upperName)
        let exposes ← optional (introduced "exposing" listing)
        return (⟨.pre preName name, qualifier, exposes⟩ : Import))
      fun _ => [] := by
  intro origin
  apply Lays.bind (keyword_lays scanned "import")
  intro _
  apply Lays.bind (whitespace_lays scanned)
  intro preName
  apply Lays.bind ((moduleName_solid scanned).lays _)
  intro name
  apply Lays.bind (introduced_lays scanned (upperName_solid scanned) "as").optional
  intro qualifier
  apply Lays.bind (introduced_lays scanned (listing_solid scanned) "exposing").optional
  intro exposes
  exact .pure fun _ => by cases qualifier <;> cases exposes <;> rfl

/-! ## Declarations -/

/-- The declaration of a fixity is laid out as nothing. -/
theorem fixityDeclaration_solid : Solid input fixityDeclaration fun _ => [] := by
  intro origin
  have notEnd : ∀ token : Token, (token.kind == .keyword && (fixityKeyword? token.lexeme).isSome) =
        true → token.kind ≠ .eof := by
    intro token isWord ends
    rw [ends] at isWord
    cases isWord
  have symbol : Lays input origin [] .begun .ended (choice [parenthesizedOperator, operatorSymbol])
      (outlined fun _ => []) := by
    apply Lays.choiceAfter
    simp only [List.forall_mem_cons, List.not_mem_nil, false_imp_iff, implies_true, and_true]
    exact ⟨(parenthesizedOperator_solid scanned).lays .begun,
      (operatorSymbol_solid scanned).lays .begun⟩
  apply Lays.bind (satisfy_lays scanned notEnd _)
  intro word
  apply Lays.bind (whitespace_lays scanned)
  intro prePrecedence
  apply Lays.bind (token_lays scanned (by decide) _)
  intro number
  split
  · intro start _ _ value stop run
    cases run
  · apply Lays.bind (whitespace_lays scanned)
    intro preOperator
    apply Lays.bind symbol
    intro symbol
    exact .pure fun _ => rfl

/-- A constructor is laid out as a node around the types of its arguments. -/
theorem variant_solid : Solid input variant (·.outlines ConstructorVariant.outlines) := by
  have parts (origin : Cursor) : Lays input origin [] .fresh .ended
      (do
        let name ← upperName
        return (⟨name, ← spaced typeTerm⟩ : ConstructorVariant))
      (outlined ConstructorVariant.outlines) := by
    apply Lays.bind (upperName_solid scanned origin)
    intro name
    apply Lays.bind (spaced_lays scanned (typeTerm_solid scanned))
    intro arguments
    exact .pure fun _ => rfl
  exact .located scanned parts fun value found stop same span =>
    congrArg (fun inside => [Outline.part span inside]) same

/-- Constructors are laid out one after the other. -/
theorem variantsUpTo_lays (bound : Nat) (before : Comments) :
    Lays input origin [] .begun .ended (variantsUpTo bound before)
      (outlined (·.flatMap (·.value.outlines ConstructorVariant.outlines))) := by
  induction bound generalizing before with
  | zero =>
    intro start _ _ value stop run
    cases run
  | succ bound ih =>
    have bar : Lays input origin [] .ended .ended variantBar (outlined fun _ => []) := by
      apply Lays.attempt
      apply Lays.bind (whitespace_lays scanned)
      intro comments
      apply Lays.bind (token_lays scanned (by decide) _)
      intro _
      exact .pure fun _ => rfl
    apply Lays.bind ((variant_solid scanned).lays _)
    intro first
    apply Lays.bind bar.optional
    intro found
    cases found with
    | none => exact .pure fun _ => by simp [outlined, Commented.pre]
    | some after =>
      apply Lays.bind (whitespace_lays scanned)
      intro next
      apply Lays.bind (ih next)
      intro rest
      exact .pure fun _ => by simp [outlined]

/-- The declaration of a type is laid out as the types or constructors in it, and is no comment. -/
theorem typeDeclaration_lays :
    Lays input origin [] .fresh .ended typeDeclaration fun entry found _ =>
      entry.inside = found ∧ ∀ comment, entry ≠ .comment comment := by
  have word : Lays input origin [] .ended .ended aliasWord (outlined fun _ => []) := by
    apply Lays.attempt
    apply Lays.bind (whitespace_lays scanned)
    intro comments
    apply Lays.bind (spelled_lays scanned (by decide) "alias")
    intro _
    exact .pure fun _ => rfl
  apply Lays.bind (keyword_lays scanned "type")
  intro _
  apply Lays.bind word.optional
  intro aliasComments
  apply Lays.bind (whitespace_lays scanned)
  intro preName
  apply Lays.bind ((upperName_solid scanned).lays _)
  intro name
  apply Lays.bind (spaced_lays scanned (lowerName_solid scanned))
  intro parameters
  apply Lays.bind (whitespace_lays scanned)
  intro preEquals
  apply Lays.bind (token_lays scanned (by decide) _)
  intro _
  apply Lays.bind (whitespace_lays scanned)
  intro postEquals
  cases aliasComments with
  | some preAlias =>
    apply Lays.bind ((typeExpression_solid scanned).lays _)
    intro type
    exact .pure fun _ => ⟨by simp [TopLevel.inside, Commented.pre], by rintro _ ⟨⟩⟩
  | none =>
    have constructors : Lays input origin [] .begun .ended (variants (preEquals ++ postEquals))
        (outlined (·.flatMap (·.value.outlines ConstructorVariant.outlines))) :=
      variantsUpTo_lays scanned input.repetitionLimit _
    apply Lays.bind constructors
    intro found
    exact .pure fun _ => ⟨by simp [TopLevel.inside], by rintro _ ⟨⟩⟩

/-- An entry at the top level is laid out as what stands in it, and is no comment. -/
theorem entry_lays :
    Lays input origin [] .fresh .ended
      (choiceNamed "a declaration"
        [do return .fixity (← fixityDeclaration),
          typeDeclaration,
          do return .declaration (← declaration expression)])
      fun entry found _ => entry.inside = found ∧ ∀ comment, entry ≠ .comment comment := by
  apply Lays.choiceAfter
  simp only [List.forall_mem_cons, List.not_mem_nil, false_imp_iff, implies_true, and_true]
  refine ⟨?_, typeDeclaration_lays scanned, ?_⟩
  · apply Lays.bind (fixityDeclaration_solid scanned origin)
    intro fixity
    exact .pure fun _ => ⟨rfl, nofun⟩
  · apply Lays.bind (declaration_solid scanned (expression_solid scanned) origin)
    intro declaration
    exact .pure fun _ => ⟨rfl, nofun⟩

end Marginalia.Grammar
