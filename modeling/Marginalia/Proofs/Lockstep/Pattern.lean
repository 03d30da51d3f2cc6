import Marginalia.Grammar.Pattern
import Marginalia.Grammar.TypeExpression
import Marginalia.Proofs.Lockstep.Word

/-!
# Patterns and types in lockstep

Every rule of the grammars of patterns and of types runs in lockstep on corresponding inputs, if the
rules inside it do with one token less; and by induction over the tokens that are left every level
does.
-/

namespace Marginalia.Grammar

open Marginalia.Parser

variable {left right : Input} {c : Correspondence left right} {n d : Nat}

/-! ## Patterns -/

/-- What is seen of a node with patterns inside it. -/
def patternNodeView (view : View) : PatternNode Pattern → PatternNode Pattern :=
  PatternNode.view view (Pattern.view view)

/-- A located node runs in lockstep as a pattern. -/
theorem patternOf_steps {p q : Parser (PatternNode Pattern)}
    (node : c.Steps n d patternNodeView p q) :
    c.Steps n d Pattern.view (patternOf p) (patternOf q) :=
  .andThen node.located fun _ _ same => .pure (by simpa [patternNodeView] using same)

/-- A braced list of field names runs in lockstep. -/
theorem recordPattern_steps : c.Steps n 1 patternNodeView recordPattern recordPattern := by
  refine .andThen (.group (by decide) rfl (by decide) lowerName_steps _) ?_
  rintro ⟨⟨fields, _⟩, _⟩ ⟨⟨fields', _⟩, _⟩ same
  obtain ⟨sameFields, -, -⟩ := Items.eq_of_view same
  match fields, fields', sameFields with
  | [], [], _ => exact .fail _
  | first :: rest, first' :: rest', sameFields =>
    exact .pure (by simpa [patternNodeView, PatternNode.view] using sameFields)

section Over

variable {p q : Parser Pattern} (pattern : c.Steps (n - 1) 1 Pattern.view p q)

include pattern

/-- Patterns in parentheses run in lockstep. -/
theorem tuplePattern_steps : c.Steps n 1 patternNodeView (tuplePattern p) (tuplePattern q) := by
  refine .andThen (.group (by decide) rfl (by decide) pattern _) ?_
  rintro ⟨⟨elements, trailing⟩, _⟩ ⟨⟨elements', trailing'⟩, _⟩ same
  obtain ⟨sameElements, sameTrailing, -⟩ := Items.eq_of_view same
  rcases few_or_many sameElements with ⟨rfl, rfl⟩ | ⟨a, b, rfl, rfl⟩ | ⟨_, _, _, _, _, _, rfl, rfl⟩
  · exact .pure (by simpa [patternNodeView, PatternNode.view] using sameTrailing)
  · exact .pure (by simpa [patternNodeView, PatternNode.view] using sameElements)
  · exact .pure (by simpa [patternNodeView, PatternNode.view] using sameElements)

/-- Patterns in square brackets run in lockstep. -/
theorem listPattern_steps : c.Steps n 1 patternNodeView (listPattern p) (listPattern q) := by
  refine .andThen (.group (by decide) rfl (by decide) pattern _) ?_
  rintro ⟨⟨elements, trailing⟩, _⟩ ⟨⟨elements', trailing'⟩, _⟩ same
  obtain ⟨sameElements, sameTrailing, -⟩ := Items.eq_of_view same
  match elements, elements', sameElements with
  | [], [], _ => exact .pure (by simpa [patternNodeView, PatternNode.view] using sameTrailing)
  | _ :: _, _ :: _, sameElements =>
    exact .pure (by simpa [patternNodeView, PatternNode.view] using sameElements)

end Over

/-- A pattern of one word runs in lockstep. -/
theorem wordPattern_steps : c.Steps n 1 patternNodeView wordPattern wordPattern := by
  refine .ifThen (.peekSpelled rfl _) ?_ (.ifThen (.peekIs rfl) ?_ (.ifThen (.peekIs rfl) ?_ ?_))
  · exact .andThen (.token (by decide) _) fun _ _ _ => .pure rfl
  · exact .andThen lowerName_steps fun _ _ same => .pure (congrArg PatternNode.name same)
  · exact .andThen qualifiedUpperName_steps fun _ _ same =>
      .pure (congrArg (PatternNode.data · []) same)
  · exact .andThen literal_steps fun _ _ same => .pure (congrArg PatternNode.literal same)

/-- A term over the patterns inside it runs in lockstep. -/
theorem patternTermOver_steps {p q : Parser Pattern}
    (pattern : c.Steps (n - 1) 1 Pattern.view p q) :
    c.Steps n 1 Pattern.view (patternTermOver p) (patternTermOver q) :=
  .expecting _ (patternOf_steps (.choice (.cons recordPattern_steps (.cons (tuplePattern_steps
      pattern) (.cons (listPattern_steps pattern) (.cons wordPattern_steps .nil))))))

section Term

variable {p q : Parser Pattern} (term : c.Steps n 1 Pattern.view p q)

include term

/-- A constructor with arguments, or a term, runs in lockstep. -/
theorem patternOperand_steps : c.Steps n 1 Pattern.view (patternOperand p) (patternOperand q) := by
  refine .ifThen (.peekIs rfl) (patternOf_steps ?_) term
  refine .andThen qualifiedUpperName_steps fun tag tag' sameTag => ?_
  refine .bind (spaced_steps term) fun arguments arguments' same => .pure ?_
  simpa [patternNodeView, PatternNode.view, sameTag.eq] using same

/-- Operands joined by the operator run in lockstep. -/
theorem consPattern_steps : c.Steps n 1 Pattern.view (consPattern p) (consPattern q) := by
  refine .bind .position fun start start' sameStart => ?_
  refine .andThen (joined_steps (.operator "::") (patternOperand_steps term)) ?_
  rintro ⟨first, rest⟩ ⟨first', rest'⟩ same
  obtain ⟨sameFirst, sameRest⟩ := Prod.mk.inj same
  match rest, rest', sameRest with
  | [], [], _ => exact .pure (congrArg Commented.value sameFirst)
  | _ :: _, _ :: _, sameRest =>
    refine .bind .position fun stop stop' sameStop => .pure ?_
    simpa [View.span, PatternNode.view, sameStart, sameStop] using And.intro sameFirst sameRest

/-- A full pattern over its terms runs in lockstep. -/
theorem patternOver_steps : c.Steps n 1 Pattern.view (patternOver p) (patternOver q) := by
  have word : c.Steps n 1 View.comments aliasKeyword aliasKeyword := by
    refine .attempt (.bind .whitespace fun comments comments' same => ?_)
    exact .andThen (.keyword "as") fun _ _ _ => .pure same
  refine .expecting _ (.bind .position fun start start' sameStart => ?_)
  refine .andThen (consPattern_steps term) fun pattern pattern' samePattern => ?_
  refine .bind word.optional fun before before' sameBefore => ?_
  match before, before', sameBefore with
  | none, none, _ => exact .pure samePattern
  | some before, some before', sameBefore =>
    refine .bind .whitespace fun after after' sameAfter => ?_
    refine .bind lowerName_steps.weaken fun name name' sameName => ?_
    refine .bind .position fun stop stop' sameStop => .pure ?_
    simp [View.span, PatternNode.view, Commented.pre, Commented.post, sameStart, sameStop,
      samePattern, Option.some.inj sameBefore, sameAfter, sameName.eq]

end Term

/-- At every level that exceeds the tokens left a term runs in lockstep. -/
theorem patternTermWithin_steps (m bound bound' : Nat) (enough : m < bound) (enough' : m < bound') :
    c.Steps m 1 Pattern.view (patternTermWithin bound) (patternTermWithin bound') := by
  induction m generalizing bound bound' with
  | zero => exact .of_none
  | succ m ih =>
    obtain ⟨bound, rfl, further⟩ := Correspondence.Steps.exists_succ_of_lt enough
    obtain ⟨bound', rfl, further'⟩ := Correspondence.Steps.exists_succ_of_lt enough'
    exact patternTermOver_steps (patternOver_steps (ih bound bound' further further'))

/-- A term runs in lockstep. -/
theorem patternTerm_steps : c.Steps n 1 Pattern.view patternTerm patternTerm :=
  .limited Correspondence.Steps.size_lt_nestingLimit fun m bound bound' _ enough enough' =>
    patternTermWithin_steps m bound bound' enough enough'

/-- A pattern runs in lockstep. -/
theorem pattern_steps : c.Steps n 1 Pattern.view pattern pattern :=
  patternOver_steps patternTerm_steps

/-! ## Types -/

/-- What is seen of a node with types inside it. -/
def typeNodeView (view : View) : TypeNode TypeExpression → TypeNode TypeExpression :=
  TypeNode.view view (TypeExpression.view view)

/-- A located node runs in lockstep as a type. -/
theorem typeOf_steps {p q : Parser (TypeNode TypeExpression)}
    (node : c.Steps n d typeNodeView p q) : c.Steps n d TypeExpression.view (typeOf p) (typeOf q) :=
  .andThen node.located fun _ _ same => .pure (by simpa [typeNodeView] using same)

/-- The name of a record and the bar after it run in lockstep. -/
theorem recordBase_steps :
    c.Steps n 1 (fun view => Commented.view view (View.plain view)) recordBase recordBase :=
  .attempt (.andThen lowerName_steps.padded fun _ _ same =>
    .weaken (.andThen (.token (by decide) _) fun _ _ _ => .pure same))

/-- What is seen of fields in braces, perhaps after the name of a record. -/
def bracedView {α γ : Type} (seen : View → α → γ) (view : View)
    (found : Option (Commented Text) × Items α) : Option (Commented Text) × Items γ :=
  (found.1.map (Commented.view view id), found.2.view view (seen view))

/-- Fields in braces, perhaps after the name of a record, run in lockstep if fields do. -/
theorem braced_steps {α γ : Type} {seen : View → α → γ} {p q : Parser α}
    (field : c.Steps (n - 1) d seen p q) : c.Steps n 1 (bracedView seen) (do
        let _ ← token .leftBrace "'\x7b'"
        let base ← optional recordBase
        return (base, ← separated .rightBrace p "'\x7d'"))
      (do
        let _ ← token .leftBrace "'\x7b'"
        let base ← optional recordBase
        return (base, ← separated .rightBrace q "'\x7d'")) := by
  refine .follow (.token (by decide) _) fun _ _ _ => .bind recordBase_steps.optional
    fun base base' sameBase => ?_
  refine .bind (.separated rfl (by decide) field _) fun fields fields' sameFields => .pure ?_
  exact Prod.ext sameBase sameFields

section Over

variable {p q : Parser TypeExpression} (type : c.Steps (n - 1) 1 TypeExpression.view p q)

include type

/-- Types in parentheses run in lockstep. -/
theorem tupleType_steps : c.Steps n 1 typeNodeView (tupleType p) (tupleType q) := by
  refine .andThen (.group (by decide) rfl (by decide) type _) ?_
  rintro ⟨⟨elements, trailing⟩, _⟩ ⟨⟨elements', trailing'⟩, _⟩ same
  obtain ⟨sameElements, sameTrailing, -⟩ := Items.eq_of_view same
  rcases few_or_many sameElements with ⟨rfl, rfl⟩ | ⟨a, b, rfl, rfl⟩ | ⟨_, _, _, _, _, _, rfl, rfl⟩
  · exact .pure (by simpa [typeNodeView, TypeNode.view] using sameTrailing)
  · exact .pure (by simpa [typeNodeView, TypeNode.view] using sameElements)
  · exact .pure (by simpa [typeNodeView, TypeNode.view] using sameElements)

/-- A field runs in lockstep. -/
theorem recordTypeField_steps :
    c.Steps (n - 1) 1 (fun view => RecordTypeField.view view (TypeExpression.view view))
      (recordTypeField p) (recordTypeField q) := by
  refine .andThen lowerName_steps fun name name' sameName =>
    .bind .whitespace fun before before' sameBefore => ?_
  refine .bind (.weaken (.token (by decide) _)) fun _ _ _ =>
    .bind .whitespace fun after after' sameAfter => ?_
  refine .bind type.weaken fun a b same => .pure ?_
  simp [RecordTypeField.view, Commented.pre, Commented.post, sameName.eq, sameBefore,
    sameAfter, same]

/-- A record type runs in lockstep. -/
theorem recordType_steps : c.Steps n 1 typeNodeView (recordType p) (recordType q) := by
  refine .andThen (braced_steps (recordTypeField_steps type)).trackNewline ?_
  rintro ⟨⟨base, fields⟩, multiline⟩ ⟨⟨base', fields'⟩, multiline'⟩ same
  exact .pure (by simpa [typeNodeView, TypeNode.view, bracedView, Items.view, and_assoc] using same)

/-- A term over the types inside it runs in lockstep. -/
theorem typeTermOver_steps : c.Steps n 1 TypeExpression.view (typeTermOver p) (typeTermOver q) := by
  refine .expecting _ (typeOf_steps (.choice
      (.cons (tupleType_steps type) (.cons (recordType_steps type) (.cons ?_ (.cons ?_ .nil))))))
  · exact .andThen lowerName_steps fun _ _ same => .pure (congrArg TypeNode.name same)
  · exact .andThen qualifiedUpperName_steps fun _ _ same =>
      .pure (congrArg (TypeNode.construction · []) same)

end Over

section Term

variable {p q : Parser TypeExpression} (term : c.Steps n 1 TypeExpression.view p q)

include term

/-- A constructor with arguments, or a term, runs in lockstep. -/
theorem typeOperand_steps : c.Steps n 1 TypeExpression.view (typeOperand p) (typeOperand q) := by
  refine .ifThen (.peekIs rfl) (typeOf_steps ?_) term
  refine .andThen qualifiedUpperName_steps fun tag tag' sameTag => ?_
  refine .bind (spaced_steps term) fun arguments arguments' same => .pure ?_
  simpa [typeNodeView, TypeNode.view, sameTag.eq] using same

/-- A full type over its terms runs in lockstep. -/
theorem typeOver_steps : c.Steps n 1 TypeExpression.view (typeOver p) (typeOver q) := by
  refine .expecting _ (.bind .position fun start start' sameStart => ?_)
  refine .andThen (joined_steps (.token (by decide) _) (typeOperand_steps term)).trackNewline ?_
  rintro ⟨⟨first, rest⟩, multiline⟩ ⟨⟨first', rest'⟩, multiline'⟩ same
  obtain ⟨sameOperands, sameMultiline⟩ := Prod.mk.inj same
  obtain ⟨sameFirst, sameRest⟩ := Prod.mk.inj sameOperands
  match rest, rest', sameRest with
  | [], [], _ => exact .pure (congrArg Commented.value sameFirst)
  | _ :: _, _ :: _, sameRest =>
    obtain rfl : multiline = multiline' := sameMultiline
    refine .bind .position fun stop stop' sameStop => .pure ?_
    simpa [View.span, TypeNode.view, sameStart, sameStop] using And.intro sameFirst sameRest

end Term

/-- At every level that exceeds the tokens left a term runs in lockstep. -/
theorem typeTermWithin_steps (m bound bound' : Nat) (enough : m < bound) (enough' : m < bound') :
    c.Steps m 1 TypeExpression.view (typeTermWithin bound) (typeTermWithin bound') := by
  induction m generalizing bound bound' with
  | zero => exact .of_none
  | succ m ih =>
    obtain ⟨bound, rfl, further⟩ := Correspondence.Steps.exists_succ_of_lt enough
    obtain ⟨bound', rfl, further'⟩ := Correspondence.Steps.exists_succ_of_lt enough'
    exact typeTermOver_steps (typeOver_steps (ih bound bound' further further'))

/-- A term runs in lockstep. -/
theorem typeTerm_steps : c.Steps n 1 TypeExpression.view typeTerm typeTerm :=
  .limited Correspondence.Steps.size_lt_nestingLimit fun m bound bound' _ enough enough' =>
    typeTermWithin_steps m bound bound' enough enough'

/-- A type runs in lockstep. -/
theorem typeExpression_steps : c.Steps n 1 TypeExpression.view typeExpression typeExpression :=
  typeOver_steps typeTerm_steps

end Marginalia.Grammar
