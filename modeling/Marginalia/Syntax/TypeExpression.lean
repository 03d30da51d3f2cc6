import Marginalia.Comment
import Marginalia.Syntax.Name

/-!
# Type expressions

Types as they are written in signatures and declarations. As with patterns, the node type is written
over the type of its children, and `TypeExpression.fold` computes from the leaves up.
-/

namespace Marginalia

/-- A field of a record type over the types `τ`. -/
structure RecordTypeField (τ : Type) where
  /-- The name of the field and the comments before its colon. -/
  name : Commented Text
  /-- The type of the field and the comments after the colon. -/
  type : Commented τ
deriving Repr, DecidableEq

/-- The forms of a type over the types `τ` inside it. -/
inductive TypeNode (τ : Type) where
  /-- An empty pair of parentheses. -/
  | unit (comments : Comments)
  /-- A type variable. -/
  | name (name : Text)
  /-- A type constructor and its arguments. -/
  | construction (tag : QualifiedName) (arguments : List (Commented τ))
  | parens (type : Commented τ)
  | tuple (elements : List (Commented τ))
  /-- A record, perhaps extending the record type named by `base`. -/
  | record (base : Option (Commented Text)) (fields : List (Commented (RecordTypeField τ)))
      (trailing : Comments) (multiline : Bool)
  /-- Operands joined by arrows; comments before each arrow follow the operand on its left. -/
  | function (first : Commented τ) (rest : List (Commented τ)) (multiline : Bool)
deriving Repr, DecidableEq

/-- A type and where it was written. -/
structure TypeExpression where
  /-- The stretch of source of the type. -/
  span : Span
  /-- The form of the type. -/
  node : TypeNode TypeExpression

namespace RecordTypeField

/-- Changes the type of every field, knowing that it is one of the fields'. -/
def mapMem (fields : List (Commented (RecordTypeField τ)))
    (f : (t : τ) → t ∈ fields.map (·.value.type.value) → β) :
    List (Commented (RecordTypeField β)) :=
  fields.attach.map fun field =>
    let inner := field.1.value
    ⟨field.1.before, ⟨inner.name, ⟨inner.type.before, f inner.type.value
        (List.mem_map.mpr ⟨field.1, field.2, rfl⟩), inner.type.after⟩⟩, field.1.after⟩

/-- A field's type is smaller than the list of fields. -/
theorem sizeOf_lt_of_mem [SizeOf τ] (fields : List (Commented (RecordTypeField τ))) {t : τ}
    (member : t ∈ fields.map (·.value.type.value)) : sizeOf t < sizeOf fields := by
  obtain ⟨field, inList, rfl⟩ := List.mem_map.mp member
  have inType := field.value.type.sizeOf_value_lt
  have inField : sizeOf field.value.type < sizeOf field.value := by
    cases field.value with
    | mk name type => simp only [mk.sizeOf_spec]; omega
  have inCommented := field.sizeOf_value_lt
  have inFields := List.sizeOf_lt_of_mem inList
  omega

end RecordTypeField

namespace TypeNode

/-- The types a node is made of, in source order. -/
def children : TypeNode τ → List τ
  | unit _ => []
  | name _ => []
  | construction _ arguments => arguments.map (·.value)
  | parens type => [type.value]
  | tuple elements => elements.map (·.value)
  | record _ fields _ _ => fields.map (·.value.type.value)
  | function first rest _ => first.value :: rest.map (·.value)

/-- Changes every child of a node, knowing that it is one of the node's. -/
def mapMem : (node : TypeNode τ) → ((t : τ) → t ∈ node.children → β) → TypeNode β
  | unit comments, _ => unit comments
  | name n, _ => name n
  | construction tag arguments, f => construction tag (Commented.mapMem arguments f)
  | parens type, f => parens ⟨type.before, f type.value type.value_mem_singleton, type.after⟩
  | tuple elements, f => tuple (Commented.mapMem elements f)
  | record base fields trailing multiline, f =>
    record base (RecordTypeField.mapMem fields f) trailing multiline
  | function first rest multiline, f =>
    function ⟨first.before, f first.value (first.value_mem_cons rest), first.after⟩
      (Commented.mapMem rest fun t member => f t (first.mem_cons_of_mem_rest member)) multiline

/-- Changes every child of a node. -/
def map (f : τ → β) (node : TypeNode τ) : TypeNode β := node.mapMem fun t _ => f t

/-- A child is smaller than its node. -/
theorem sizeOf_lt_of_mem [SizeOf τ] {node : TypeNode τ} {t : τ} (member : t ∈ node.children) :
    sizeOf t < sizeOf node := by
  cases node with
  | construction tag arguments =>
    have smaller := Commented.sizeOf_lt_of_mem arguments member
    simp only [construction.sizeOf_spec]; omega
  | tuple elements =>
    have smaller := Commented.sizeOf_lt_of_mem elements member
    simp only [tuple.sizeOf_spec]; omega
  | record base fields trailing multiline =>
    have smaller := RecordTypeField.sizeOf_lt_of_mem fields member
    simp only [record.sizeOf_spec]; omega
  | parens type =>
    obtain rfl := List.mem_singleton.mp member
    have smaller := type.sizeOf_value_lt
    simp only [parens.sizeOf_spec]; omega
  | function first rest multiline =>
    rcases List.mem_cons.mp member with rfl | inRest
    · have smaller := first.sizeOf_value_lt
      simp only [function.sizeOf_spec]; omega
    · have smaller := Commented.sizeOf_lt_of_mem rest inRest
      simp only [function.sizeOf_spec]; omega
  | _ => simp [children] at member

end TypeNode

namespace TypeExpression

/-- Computes a value from a type: `f` at every node, from the leaves up. -/
def fold (f : Span → TypeNode β → β) (type : TypeExpression) : β :=
  f type.span (type.node.mapMem fun t _ => t.fold f)
termination_by sizeOf type
decreasing_by
  rename_i member
  have smaller := TypeNode.sizeOf_lt_of_mem member
  cases type with
  | mk span node => simp only [mk.sizeOf_spec] at smaller ⊢; omega

/-- Folding is folding the children first. -/
theorem fold_eq (f : Span → TypeNode β → β) (type : TypeExpression) :
    type.fold f = f type.span (type.node.map (fold f)) := by
  rw [fold]; rfl

end TypeExpression

end Marginalia
