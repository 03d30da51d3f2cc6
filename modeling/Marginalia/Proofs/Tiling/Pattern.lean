import Marginalia.Grammar.Pattern
import Marginalia.Grammar.TypeExpression
import Marginalia.Proofs.Tiling.Sequence

/-!
# Laying out patterns and types

Every rule of the grammars of patterns and of types lays out the tree that it makes, if the rules
inside it do; and by induction over the levels every level does.
-/

namespace Marginalia.Grammar

open Marginalia.Parser

variable {input : Input} {origin : Cursor} (scanned : input.Scanned)

include scanned

/-! ## Patterns -/

/-- A located node is laid out as a pattern. -/
theorem patternOf_solid {node : Parser (PatternNode Pattern)}
    (solid : Solid input node (·.children.flatMap Pattern.outlines)) :
    Solid input (patternOf node) Pattern.outlines := by
  intro origin
  have located : Solid input (located node) fun found =>
      [.part found.span (found.value.children.flatMap Pattern.outlines)] :=
    .located scanned solid fun value found stop same span =>
      congrArg (fun inside => [Outline.part span inside]) same
  apply Lays.bind (located origin)
  intro found
  exact .pure fun _ => by simp [outlined]

/-- A braced list of field names is laid out as a node. -/
theorem recordPattern_solid : Solid input recordPattern (·.children.flatMap Pattern.outlines) := by
  intro origin
  apply Lays.bind (group_solid scanned (lowerName_solid scanned) (by decide) _ (by decide) origin)
  rintro ⟨⟨fields, trailing⟩, crossed⟩
  cases fields with
  | nil => exact .fail _
  | cons field rest => exact .pure fun _ => by simp [outlined, PatternNode.children]

section Over

variable {pattern : Parser Pattern} (solid : Solid input pattern Pattern.outlines)

include solid

/-- Patterns in parentheses are laid out as a node. -/
theorem tuplePattern_solid :
    Solid input (tuplePattern pattern) (·.children.flatMap Pattern.outlines) := by
  intro origin
  apply Lays.bind (group_solid scanned solid (by decide) _ (by decide) origin)
  rintro ⟨⟨elements, trailing⟩, crossed⟩
  match elements with
  | [] => exact .pure fun _ => by simp [outlined, PatternNode.children]
  | [only] => exact .pure fun _ => by simp [outlined, PatternNode.children]
  | first :: second :: rest =>
    exact .pure fun _ => by simp [outlined, PatternNode.children, List.flatMap_map]

/-- Patterns in square brackets are laid out as a node. -/
theorem listPattern_solid :
    Solid input (listPattern pattern) (·.children.flatMap Pattern.outlines) := by
  intro origin
  apply Lays.bind (group_solid scanned solid (by decide) _ (by decide) origin)
  rintro ⟨⟨elements, trailing⟩, crossed⟩
  cases elements with
  | nil => exact .pure fun _ => by simp [outlined, PatternNode.children]
  | cons first rest =>
    exact .pure fun _ => by simp [outlined, PatternNode.children, List.flatMap_map]

end Over

/-- A pattern of one word is laid out as a node. -/
theorem wordPattern_solid : Solid input wordPattern (·.children.flatMap Pattern.outlines) := by
  intro origin
  apply Lays.bind (.peekThat _)
  intro isWild
  split
  · apply Lays.bind (token_lays scanned (by decide) _)
    intro _
    exact .pure fun _ => by simp [outlined, PatternNode.children]
  · apply Lays.bind (.peekThat _)
    intro isLower
    split
    · apply Lays.bind (lowerName_solid scanned origin)
      intro name
      exact .pure fun _ => by simp [outlined, PatternNode.children]
    · apply Lays.bind (.peekThat _)
      intro isUpper
      split
      · apply Lays.bind (qualifiedUpperName_solid scanned origin)
        intro tag
        exact .pure fun _ => by simp [outlined, PatternNode.children]
      · apply Lays.bind (literal_solid scanned origin)
        intro literal
        exact .pure fun _ => by simp [outlined, PatternNode.children]

section Term

variable {term : Parser Pattern} (solid : Solid input term Pattern.outlines)

include solid

/-- A term over the patterns inside it is laid out as a pattern. -/
theorem patternTermOver_solid : Solid input (patternTermOver term) Pattern.outlines := by
  intro origin
  apply Lays.expecting
  apply patternOf_solid scanned
  intro origin
  apply Lays.choiceAfter
  simp only [List.forall_mem_cons, List.not_mem_nil, false_imp_iff, implies_true, and_true]
  exact ⟨recordPattern_solid scanned origin, tuplePattern_solid scanned solid origin,
    listPattern_solid scanned solid origin, wordPattern_solid scanned origin⟩

/-- A constructor with arguments, or a term, is laid out as a pattern. -/
theorem patternOperand_solid : Solid input (patternOperand term) Pattern.outlines := by
  intro origin
  apply Lays.bind (.peekThat _)
  intro isUpper
  split
  · apply patternOf_solid scanned
    intro origin
    apply Lays.bind (qualifiedUpperName_solid scanned origin)
    intro tag
    apply Lays.bind (spaced_lays scanned solid)
    intro arguments
    exact .pure fun _ => by simp [outlined, PatternNode.children, List.flatMap_map]
  · exact solid origin

/-- Operands joined by the operator are laid out as a pattern. -/
theorem consPattern_solid : Solid input (consPattern term) Pattern.outlines := by
  refine .of_node scanned fun origin => .opening ?_
  apply Lays.bind (joined_solid scanned (patternOperand_solid scanned solid) fun _ =>
      operator_lays scanned "::")
  rintro ⟨first, rest⟩
  cases rest with
  | nil => exact .pure fun _ => .inl (by simp)
  | cons second others =>
    exact .closing fun cursor => .inr (by simp [PatternNode.children, List.flatMap_map])

/-- A full pattern over its terms is laid out as a pattern. -/
theorem patternOver_solid : Solid input (patternOver term) Pattern.outlines := by
  refine .of_node scanned fun origin => .expecting (.opening ?_) _
  apply Lays.bind (consPattern_solid scanned solid origin)
  intro pattern
  have word : Lays input origin [] .ended .ended aliasKeyword (outlined fun _ => []) := by
    apply Lays.attempt
    apply Lays.bind (whitespace_lays scanned)
    intro comments
    apply Lays.bind (keyword_lays scanned "as")
    intro _
    exact .pure fun _ => rfl
  apply Lays.bind word.optional
  intro found
  cases found with
  | none => exact .pure fun _ => .inl (by simp)
  | some before =>
    apply Lays.bind (whitespace_lays scanned)
    intro after
    apply Lays.bind ((lowerName_solid scanned).lays _)
    intro name
    exact .closing fun cursor => .inr (by simp [PatternNode.children, Commented.post])

end Term

/-- At every level a term is laid out as a pattern. -/
theorem patternTermWithin_solid (levels : Nat) :
    Solid input (patternTermWithin levels) Pattern.outlines := by
  induction levels with
  | zero =>
    intro origin start _ _ value stop run
    cases run
  | succ levels ih => exact patternTermOver_solid scanned (patternOver_solid scanned ih)

/-- A term is laid out as a pattern. -/
theorem patternTerm_solid : Solid input patternTerm Pattern.outlines :=
  fun origin start place holds value stop run =>
    patternTermWithin_solid scanned input.nestingLimit origin start place holds value stop run

/-- A pattern is laid out as such. -/
theorem pattern_solid : Solid input pattern Pattern.outlines :=
  patternOver_solid scanned (patternTerm_solid scanned)

/-! ## Types -/

/-- A located node is laid out as a type. -/
theorem typeOf_solid {node : Parser (TypeNode TypeExpression)}
    (solid : Solid input node (·.children.flatMap TypeExpression.outlines)) :
    Solid input (typeOf node) TypeExpression.outlines := by
  intro origin
  have located : Solid input (located node) fun found =>
      [.part found.span (found.value.children.flatMap TypeExpression.outlines)] :=
    .located scanned solid fun value found stop same span =>
      congrArg (fun inside => [Outline.part span inside]) same
  apply Lays.bind (located origin)
  intro found
  exact .pure fun _ => by simp [outlined]

/-- The name of a record and the bar after it are laid out as nothing. -/
theorem recordBase_lays : Lays input origin [] .ended .ended recordBase (outlined fun _ => []) := by
  apply Lays.attempt
  apply Lays.bind (Lays.padded scanned ((lowerName_solid scanned).lays _))
  intro name
  apply Lays.bind (token_lays scanned (by decide) _)
  intro _
  exact .pure fun _ => rfl

/-- Fields in braces, perhaps after the name of a record, are laid out one after the other. -/
theorem braced_lays {α : Type} {field : Parser α} {outlines : α → List Outline}
    (solid : Solid input field outlines) : Lays input origin [] .fresh .ended (do
        let _ ← token .leftBrace "'\x7b'"
        let base ← optional recordBase
        return (base, ← separated .rightBrace field "'\x7d'"))
      (outlined fun found => found.2.items.flatMap (outlines ·.value)) := by
  apply Lays.bind (token_lays scanned (by decide) _)
  intro _
  apply Lays.bind (recordBase_lays scanned).optional
  intro base
  apply Lays.bind (separated_lays scanned solid (by decide) _)
  intro fields
  refine .pure fun _ => ?_
  cases base <;> simp [outlined]

section Over

variable {type : Parser TypeExpression} (solid : Solid input type TypeExpression.outlines)

include solid

/-- Types in parentheses are laid out as a node. -/
theorem tupleType_solid :
    Solid input (tupleType type) (·.children.flatMap TypeExpression.outlines) := by
  intro origin
  apply Lays.bind (group_solid scanned solid (by decide) _ (by decide) origin)
  rintro ⟨⟨elements, trailing⟩, crossed⟩
  match elements with
  | [] => exact .pure fun _ => by simp [outlined, TypeNode.children]
  | [only] => exact .pure fun _ => by simp [outlined, TypeNode.children]
  | first :: second :: rest =>
    exact .pure fun _ => by simp [outlined, TypeNode.children, List.flatMap_map]

/-- A field of a record type is laid out as its type. -/
theorem recordTypeField_solid : Solid input (recordTypeField type) (·.type.value.outlines) := by
  intro origin
  apply Lays.bind (lowerName_solid scanned origin)
  intro name
  apply Lays.bind (whitespace_lays scanned)
  intro before
  apply Lays.bind (token_lays scanned (by decide) _)
  intro _
  apply Lays.bind (whitespace_lays scanned)
  intro after
  apply Lays.bind (solid.lays _)
  intro found
  exact .pure fun _ => rfl

/-- A record type is laid out as a node. -/
theorem recordType_solid :
    Solid input (recordType type) (·.children.flatMap TypeExpression.outlines) := by
  intro origin
  apply Lays.bind (braced_lays scanned (recordTypeField_solid scanned solid)).trackNewline
  rintro ⟨⟨base, fields⟩, crossed⟩
  exact .pure fun _ => by simp [outlined, TypeNode.children, List.flatMap_map]

/-- A term over the types inside it is laid out as a type. -/
theorem typeTermOver_solid : Solid input (typeTermOver type) TypeExpression.outlines := by
  intro origin
  apply Lays.expecting
  apply typeOf_solid scanned
  intro origin
  apply Lays.choiceAfter
  simp only [List.forall_mem_cons, List.not_mem_nil, false_imp_iff, implies_true, and_true]
  refine ⟨tupleType_solid scanned solid origin, recordType_solid scanned solid origin, ?_, ?_⟩
  · apply Lays.bind (lowerName_solid scanned origin)
    intro name
    exact .pure fun _ => by simp [outlined, TypeNode.children]
  · apply Lays.bind (qualifiedUpperName_solid scanned origin)
    intro tag
    exact .pure fun _ => by simp [outlined, TypeNode.children]

/-- A constructor with arguments, or a term, is laid out as a type. -/
theorem typeOperand_solid : Solid input (typeOperand type) TypeExpression.outlines := by
  intro origin
  apply Lays.bind (.peekThat _)
  intro isUpper
  split
  · apply typeOf_solid scanned
    intro origin
    apply Lays.bind (qualifiedUpperName_solid scanned origin)
    intro tag
    apply Lays.bind (spaced_lays scanned solid)
    intro arguments
    exact .pure fun _ => by simp [outlined, TypeNode.children, List.flatMap_map]
  · exact solid origin

/-- A full type over its terms is laid out as a type. -/
theorem typeOver_solid : Solid input (typeOver type) TypeExpression.outlines := by
  refine .of_node scanned fun origin => .expecting (.opening ?_) _
  have connects :
      ∀ stage, Lays input origin [] stage stage.read (token .arrow "'->'") (outlined fun _ => []) :=
    fun _ => token_lays scanned (by decide) _
  apply Lays.bind (joined_solid scanned (typeOperand_solid scanned solid) connects).trackNewline
  rintro ⟨⟨first, rest⟩, crossed⟩
  cases rest with
  | nil => exact .pure fun _ => .inl (by simp)
  | cons second others =>
    exact .closing fun cursor => .inr (by simp [TypeNode.children, List.flatMap_map])

end Over

/-- At every level a term is laid out as a type. -/
theorem typeTermWithin_solid (levels : Nat) :
    Solid input (typeTermWithin levels) TypeExpression.outlines := by
  induction levels with
  | zero =>
    intro origin start _ _ value stop run
    cases run
  | succ levels ih => exact typeTermOver_solid scanned (typeOver_solid scanned ih)

/-- A term is laid out as a type. -/
theorem typeTerm_solid : Solid input typeTerm TypeExpression.outlines :=
  fun origin start place holds value stop run =>
    typeTermWithin_solid scanned input.nestingLimit origin start place holds value stop run

/-- A type is laid out as such. -/
theorem typeExpression_solid : Solid input typeExpression TypeExpression.outlines :=
  typeOver_solid scanned (typeTerm_solid scanned)

end Marginalia.Grammar
