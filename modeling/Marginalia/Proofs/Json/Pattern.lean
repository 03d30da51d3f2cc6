import Marginalia.Proofs.Json.Faithful
import Marginalia.Proofs.Tree.Literals
import Marginalia.Proofs.Tree.View

/-!
# Patterns and types that can be told from how they are printed

A node tells its form, and what it holds if its children tell what they are. Floating-point numbers
are left out, since several of them may be printed alike.
-/

namespace Marginalia

/-! ## Numbers -/

/-- Natural numbers with the same digits are the same. -/
theorem Text.ofNat_inj {m n : Nat} : ofNat m = ofNat n ↔ m = n := by
  have value (n : Nat) : Decimal.valueOf 10 (ofNat n) = n :=
    Decimal.valueOf_inBase (by decide) (by decide) n
  constructor
  · intro same
    rw [← value m, ← value n, same]
  · exact fun same => same ▸ rfl

/-- Integers with the same sign and digits are the same. -/
theorem Text.ofInt_inj {m n : Int} : ofInt m = ofInt n ↔ m = n := by
  have minus : CodeUnit.isDigit (.ofChar '-') = false := by decide
  have unsigned (natural : Nat) (rest : Text) : ofNat natural ≠ .ofChar '-' :: rest := by
    intro same
    have digits := (digitPart_ofNat natural).2
    rw [same] at digits
    have isDigit := digits _ (.head _)
    rw [minus] at isDigit
    cases isDigit
  have mark : ofString "-" = [.ofChar '-'] := rfl
  constructor
  · intro same
    rw [ofInt, ofInt, mark] at same
    by_cases negative : m < 0
    · by_cases otherNegative : n < 0
      · rw [if_pos negative, if_pos otherNegative, List.append_cancel_left_eq, ofNat_inj] at same
        omega
      · rw [if_pos negative, if_neg otherNegative] at same
        exact absurd same.symm (unsigned _ _)
    · by_cases otherNegative : n < 0
      · rw [if_neg negative, if_pos otherNegative] at same
        exact absurd same (unsigned _ _)
      · rw [if_neg negative, if_neg otherNegative, List.append_cancel_left_eq, ofNat_inj] at same
        omega
  · exact fun same => same ▸ rfl

namespace Json

variable {π τ : Type}

/-! ## Names -/

/-- A text between its comments can be told. -/
theorem faithful_commentedText (value : Commented Text) : Faithful (commented string) value :=
  faithful_commented (faithful_string value.value)

/-- Texts between their comments can be told. -/
theorem faithful_commentedTexts (values : List (Commented Text)) :
    Faithful (commentedList string) values :=
  faithful_commentedList fun value _ => faithful_string value.value

/-- A text between its comments that may be absent can be told. -/
theorem faithful_optionalText (value : Option (Commented Text)) :
    Faithful (optional (commented string)) value :=
  faithful_optional (fun inner _ => faithful_commentedText inner) nofun

/-- A qualified name can be told. -/
theorem faithful_qualifiedName (value : QualifiedName) : Faithful qualifiedName value where
  exact := by simp [qualifiedName, (faithful_texts _).exact]
  eq_of_write other same := by
    obtain ⟨qualifier, name⟩ := value
    obtain ⟨otherQualifier, otherName⟩ := other
    simpa [qualifiedName, (faithful_texts _).write_eq_iff] using same

/-! ## Places -/

/-- A position can be told. -/
theorem faithful_position (value : Position) : Faithful printedPosition value where
  exact := by simp [printedPosition]
  eq_of_write other same := by
    obtain ⟨offset, line, column⟩ := value
    obtain ⟨otherOffset, otherLine, otherColumn⟩ := other
    simpa [printedPosition] using same

/-- A span can be told. -/
theorem faithful_span (value : Span) : Faithful printed.span value where
  exact := by simp [printed, (faithful_position _).exact]
  eq_of_write other same := by
    obtain ⟨start, stop⟩ := value
    obtain ⟨otherStart, otherStop⟩ := other
    simpa [printed, (faithful_position _).write_eq_iff] using same

/-- A node with its span is the same as another if the spans and the nodes are. -/
@[simp]
theorem spanned_inj {span otherSpan : Span} {value otherValue : Json} :
    printed.spanned otherSpan otherValue = printed.spanned span value ↔ otherSpan = span ∧
    otherValue = value := by
  simp [Style.spanned, (faithful_span _).write_eq_iff]

/-- A node with its span is exact if the node is. -/
@[simp]
theorem exact_spanned {span : Span} {value : Json} :
    (printed.spanned span value).Exact ↔ value.Exact := by
  simp [Style.spanned, (faithful_span _).exact]

/-- What is printed as a span around a node can be told, if it is made of these and the node can be
told. -/
theorem Faithful.of_spanned {α ν : Type} {place : α → Span} {inner : α → ν} {write : α → Json}
    {writeNode : ν → Json} {value : α}
    (written : ∀ value, write value = printed.spanned (place value) (writeNode (inner value)))
    (madeOf : ∀ other, place other = place value → inner other = inner value → other = value)
    (faithful : Faithful writeNode (inner value)) : Faithful write value where
  exact := by
    rw [written, exact_spanned]
    exact faithful.exact
  eq_of_write other same := by
    rw [written, written, spanned_inj] at same
    exact madeOf other same.1 (faithful.eq_of_write _ same.2)

/-- A changed value with its place is written as the value that it was made from. -/
@[simp]
theorem located_map {α β : Type} (write : β → Json) (f : α → β) (value : Located α) :
    printed.located write (value.map f) = printed.located (write ∘ f) value := rfl

/-- Changed values with their places are written as the values that they were made from. -/
@[simp]
theorem located_comp_map {α β : Type} (write : β → Json) (f : α → β) :
    printed.located write ∘ Located.map f = printed.located (write ∘ f) := rfl

/-- A value with its place can be told, if the value can. -/
theorem faithful_located {α : Type} {write : α → Json} {value : Located α}
    (faithful : Faithful write value.value) : Faithful (printed.located write) value := by
  refine .of_spanned (fun _ => rfl) (fun other sameSpan sameValue => ?_) faithful
  obtain ⟨_, _⟩ := other
  obtain ⟨_, _⟩ := value
  rw [Located.mk.injEq]
  exact ⟨sameSpan, sameValue⟩

/-! ## Patterns -/

/-- A literal that is no floating-point number can be told. -/
theorem faithful_literal {value : Literal} (noFloat : value.isFloat = false) :
    Faithful printed.literal value where
  exact := by
    cases value with
    | float => cases noFloat
    | _ => simp [Style.literal]
  eq_of_write other same := by
    cases value with
    | float => cases noFloat
    | integer value form =>
      cases other with
      | integer otherValue otherForm =>
        cases form <;> cases otherForm <;> simp_all [Style.literal, Text.ofInt_inj]
      | _ => simp [Style.literal] at same
    | character content =>
      cases other with
      | character otherContent => simpa [Style.literal] using same
      | _ => simp [Style.literal] at same
    | string content multiline =>
      cases other with
      | string otherContent otherMultiline => simpa [Style.literal] using same
      | _ => simp [Style.literal] at same
    | boolean value =>
      cases other with
      | boolean otherValue => simpa [Style.literal] using same
      | _ => simp [Style.literal] at same

/-- A node of a pattern is exact if its children are, and if it is no floating-point number. -/
theorem exact_patternNode {node : PatternNode Json} (noFloats : NoFloats node.ownLiterals)
    (children : ∀ child ∈ node.children, child.Exact) : (printed.patternNode node).Exact := by
  cases node with
  | literal value => simp [Style.patternNode, (faithful_literal (noFloats value (.head _))).exact]
  | data tag arguments =>
    simpa [Style.patternNode, PatternNode.children,
      (faithful_qualifiedName tag).exact] using children
  | _ => simp_all [Style.patternNode, PatternNode.children]

/-- Nodes of patterns that are printed alike are of one form. -/
theorem ctorIdx_eq_of_patternNode {write : π → Json} {node other : PatternNode π}
    (same : printed.patternNode (other.map write) = printed.patternNode (node.map write)) :
    other.ctorIdx = node.ctorIdx := by
  rw [PatternNode.map_eq, PatternNode.map_eq] at same
  -- different forms have different kinds
  cases node <;> cases other <;> first | rfl | simp [Style.patternNode] at same

/-- A node of a pattern can be told, if its children can and it is no floating-point number. -/
theorem faithful_patternNode {write : π → Json} {node : PatternNode π}
    (noFloats : NoFloats node.ownLiterals)
    (children : ∀ child ∈ node.children, Faithful write child) :
    Faithful (printed.patternNode ∘ PatternNode.map write) node where
  exact := by
    refine exact_patternNode (node.ownLiterals_map write ▸ noFloats) ?_
    rw [PatternNode.children_map, List.forall_mem_map]
    exact fun child isChild => (children child isChild).exact
  eq_of_write other same := by
    have sameForm := ctorIdx_eq_of_patternNode same
    rw [Function.comp_apply, Function.comp_apply, PatternNode.map_eq, PatternNode.map_eq] at same
    -- the other node is split by its form as well, and only the same form is left
    cases node with
    | anything =>
      cases other <;> cases sameForm
      rfl
    | unit comments =>
      cases other <;> cases sameForm
      simpa [Style.patternNode] using same
    | literal value =>
      cases other <;> cases sameForm
      have inner := faithful_literal (noFloats value (.head _))
      simpa [Style.patternNode, inner.write_eq_iff] using same
    | name name =>
      cases other <;> cases sameForm
      simpa [Style.patternNode] using same
    | operator symbol =>
      cases other <;> cases sameForm
      simpa [Style.patternNode] using same
    | data tag arguments =>
      cases other <;> cases sameForm
      have name := faithful_qualifiedName tag
      have inner := faithful_children children arguments (List.Subset.refl _)
      simpa [Style.patternNode, name.write_eq_iff, inner.write_eq_iff] using same
    | parens pattern =>
      cases other <;> cases sameForm
      have inner := faithful_commented (children pattern.value (.head _))
      simpa [Style.patternNode, inner.write_eq_iff] using same
    | tuple elements =>
      cases other <;> cases sameForm
      have inner := faithful_children children elements (List.Subset.refl _)
      simpa [Style.patternNode, inner.write_eq_iff] using same
    | emptyList comments =>
      cases other <;> cases sameForm
      simpa [Style.patternNode] using same
    | list elements =>
      cases other <;> cases sameForm
      have inner := faithful_children children elements (List.Subset.refl _)
      simpa [Style.patternNode, inner.write_eq_iff] using same
    | cons first rest =>
      cases other <;> cases sameForm
      have inFirst := faithful_commented (children first.value (.head _))
      have inRest := faithful_children children rest (List.subset_cons_self _ _)
      simpa [Style.patternNode, inFirst.write_eq_iff, inRest.write_eq_iff] using same
    | record names =>
      cases other <;> cases sameForm
      simpa [Style.patternNode, (faithful_commentedTexts names).write_eq_iff] using same
    | named pattern name =>
      cases other <;> cases sameForm
      have inner := faithful_commented (children pattern.value (.head _))
      simpa [Style.patternNode, inner.write_eq_iff,
        (faithful_commentedText name).write_eq_iff] using same

/-- A pattern is printed with its span around its node. -/
theorem pattern_eq (value : Pattern) :
    printed.pattern value = printed.spanned value.span
      ((printed.patternNode ∘ PatternNode.map printed.pattern) value.node) := by
  rw [Style.pattern, Pattern.fold_eq]
  rfl

/-- A pattern can be told, if there is no floating-point number in it. -/
theorem faithful_pattern {value : Pattern} (noFloats : NoFloats value.literals) :
    Faithful printed.pattern value := by
  induction value using Pattern.induction with
  | _ span node ih =>
    -- literals of the node itself first, then those of its children
    rw [Pattern.literals_mk, noFloats_append, noFloats_flatMap] at noFloats
    have inNode := faithful_patternNode noFloats.1 fun child isChild =>
      ih child isChild (noFloats.2 child isChild)
    refine .of_spanned pattern_eq (fun other sameSpan sameNode => ?_) inNode
    obtain ⟨_, _⟩ := other
    rw [Pattern.mk.injEq]
    exact ⟨sameSpan, sameNode⟩

/-! ## Types -/

/-- A field of a record type, whose type is written. -/
def recordTypeField (field : RecordTypeField Json) : Json :=
  fields [("name", commented .string field.name), ("type", commented id field.type)]

/-- The fields of a record type are written one by one. -/
theorem typeNode_record (base : Option (Commented Text))
    (members : List (Commented (RecordTypeField Json))) (trailing : Comments) (multiline : Bool) :
    typeNode (.record base members trailing multiline) = node "RecordType" [("base",
      optional (commented .string) base), ("fields", commentedList recordTypeField members),
      ("trailing", comments trailing), ("multiline", .bool multiline)] := rfl

/-- A field of a record type can be told, if its type can. -/
theorem faithful_recordTypeField {write : τ → Json} {field : RecordTypeField τ}
    (type : Faithful write field.type.value) :
    Faithful (recordTypeField ∘ RecordTypeField.map write) field where
  exact := by simp [recordTypeField, RecordTypeField.map, type.exact]
  eq_of_write other same := by
    obtain ⟨name, type⟩ := field
    obtain ⟨otherName, otherType⟩ := other
    simpa [recordTypeField, RecordTypeField.map, (faithful_commentedText _).write_eq_iff,
      (faithful_commented type).write_eq_iff] using same

/-- A node of a type is exact if its children are. -/
theorem exact_typeNode {node : TypeNode Json} (children : ∀ child ∈ node.children, child.Exact) :
    (typeNode node).Exact := by
  cases node with
  | construction tag arguments =>
    simpa [typeNode, TypeNode.children, (faithful_qualifiedName tag).exact] using children
  | record base members => simpa [typeNode, TypeNode.children] using children
  | _ => simp_all [typeNode, TypeNode.children]

/-- Nodes of types that are printed alike are of one form. -/
theorem ctorIdx_eq_of_typeNode {write : τ → Json} {node other : TypeNode τ}
    (same : typeNode (other.map write) = typeNode (node.map write)) :
    other.ctorIdx = node.ctorIdx := by
  rw [TypeNode.map_eq, TypeNode.map_eq] at same
  cases node <;> cases other <;> first | rfl | simp [typeNode] at same

/-- A node of a type can be told, if its children can. -/
theorem faithful_typeNode {write : τ → Json} {node : TypeNode τ}
    (children : ∀ child ∈ node.children, Faithful write child) :
    Faithful (typeNode ∘ TypeNode.map write) node where
  exact := by
    refine exact_typeNode ?_
    rw [TypeNode.children_map, List.forall_mem_map]
    exact fun child isChild => (children child isChild).exact
  eq_of_write other same := by
    have sameForm := ctorIdx_eq_of_typeNode same
    rw [Function.comp_apply, Function.comp_apply, TypeNode.map_eq, TypeNode.map_eq] at same
    cases node with
    | unit comments =>
      cases other <;> cases sameForm
      simpa [typeNode] using same
    | name name =>
      cases other <;> cases sameForm
      simpa [typeNode] using same
    | construction tag arguments =>
      cases other <;> cases sameForm
      have name := faithful_qualifiedName tag
      have inner := faithful_children children arguments (List.Subset.refl _)
      simpa [typeNode, name.write_eq_iff, inner.write_eq_iff] using same
    | parens type =>
      cases other <;> cases sameForm
      have inner := faithful_commented (children type.value (.head _))
      simpa [typeNode, inner.write_eq_iff] using same
    | tuple elements =>
      cases other <;> cases sameForm
      have inner := faithful_children children elements (List.Subset.refl _)
      simpa [typeNode, inner.write_eq_iff] using same
    | record base members trailing multiline =>
      cases other <;> cases sameForm
      have extended := faithful_optionalText base
      have inner : Faithful (commentedList (recordTypeField ∘ RecordTypeField.map write)) members :=
        faithful_commentedList fun _ member =>
          faithful_recordTypeField (children _ (List.mem_map_of_mem member))
      simpa [typeNode_record, extended.write_eq_iff, inner.write_eq_iff] using same
    | function first rest multiline =>
      cases other <;> cases sameForm
      have inFirst := faithful_commented (children first.value (.head _))
      have inRest := faithful_children children rest (List.subset_cons_self _ _)
      simpa [typeNode, inFirst.write_eq_iff, inRest.write_eq_iff] using same

/-- A type is printed with its span around its node. -/
theorem typeExpression_eq (value : TypeExpression) :
    printed.typeExpression value = printed.spanned value.span
      ((typeNode ∘ TypeNode.map printed.typeExpression) value.node) := by
  rw [Style.typeExpression, TypeExpression.fold_eq]
  rfl

/-- A type can be told. -/
theorem faithful_typeExpression (value : TypeExpression) :
    Faithful printed.typeExpression value := by
  induction value using TypeExpression.induction with
  | _ span node ih =>
    refine .of_spanned typeExpression_eq (fun other sameSpan sameNode => ?_) (faithful_typeNode ih)
    obtain ⟨_, _⟩ := other
    rw [TypeExpression.mk.injEq]
    exact ⟨sameSpan, sameNode⟩

end Json

end Marginalia
