import Marginalia.Json.Tree
import Marginalia.Proofs.Characters
import Marginalia.Proofs.Json.Reading
import Marginalia.Proofs.Tree.Children

/-!
# Values that can be told from how they are written

A value of any type can be told from its JSON value if that is exact and no other value of the type
has it. Each writer for a part of a tree is followed by the rule that what it writes can be told as
long as the parts can be.
-/

namespace Marginalia.Json

variable {α β : Type}

/-- The value can be told from how it is written. -/
structure Faithful (write : α → Json) (value : α) : Prop where
  /-- No real number is written. -/
  exact : (write value).Exact
  /-- No other value is written in the same way. -/
  eq_of_write : ∀ other, write other = write value → other = value

/-- A value that can be told is written in one way only. -/
theorem Faithful.write_eq_iff {write : α → Json} {value other : α}
    (faithful : Faithful write value) : write other = write value ↔ other = value := by
  constructor
  · exact faithful.eq_of_write other
  · exact fun same => same ▸ rfl

attribute [simp] Exact.null Exact.bool Exact.natural Exact.string

/-! ## Objects -/

/-- A string that was given as one of characters is exact. -/
@[simp]
theorem exact_text (value : String) : (text value).Exact := .string _

/-- Strings that were given as ones of characters are the same if these are. -/
@[simp]
theorem text_inj {value other : String} : text other = text value ↔ other = value := by
  rw [text, text, string.injEq, Text.ofString_inj]

/-- Objects are the same if their keys and values are, one by one. -/
@[simp]
theorem fields_cons_inj {key otherKey : String} {value otherValue : Json}
    {members others : List (String × Json)} :
    fields ((otherKey, otherValue) :: others) = fields ((key, value) :: members) ↔ otherKey = key ∧
    otherValue = value ∧ fields others = fields members := by
  simp [fields, Text.ofString_inj, and_assoc]

/-- Nodes are the same if they are of one kind and have the same members. -/
@[simp]
theorem node_inj {kind otherKind : String} {members others : List (String × Json)} :
    node otherKind others = node kind members ↔ otherKind = kind ∧
    fields others = fields members := by
  simp [node]

/-- An object is exact if the values of its members are. -/
@[simp]
theorem exact_fields {members : List (String × Json)} :
    (fields members).Exact ↔ ∀ member ∈ members, member.2.Exact := by
  constructor
  · intro exact
    cases exact with
    | object inside =>
      intro member isMember
      exact inside (Text.ofString member.1, member.2) (List.mem_map.mpr ⟨member, isMember, rfl⟩)
  · intro inside
    refine .object fun written inMapped => ?_
    obtain ⟨member, isMember, rfl⟩ := List.mem_map.mp inMapped
    exact inside member isMember

/-- A node is exact if the values of its members are. -/
@[simp]
theorem exact_node {kind : String} {members : List (String × Json)} :
    (node kind members).Exact ↔ ∀ member ∈ members, member.2.Exact := by
  simp [node]

/-! ## Lists -/

/-- A list is exact if its elements are. -/
@[simp]
theorem exact_array {elements : List Json} :
    (array elements).Exact ↔ ∀ element ∈ elements, element.Exact := by
  constructor
  · intro exact
    cases exact with
    | array inside => exact inside
  · exact .array

/-- Lists are the same if their elements are written in the same way, and these can be told. -/
theorem Faithful.map_eq_iff {write : α → Json} {values others : List α}
    (faithful : ∀ value ∈ values, Faithful write value) :
    others.map write = values.map write ↔ others = values := by
  constructor
  · intro same
    -- on the values that can be told; nothing is known of the others
    induction values generalizing others with
    | nil => exact List.map_eq_nil_iff.mp same
    | cons value values ih =>
      cases others with
      | nil => cases same
      | cons other others =>
        obtain ⟨first, further⟩ := List.forall_mem_cons.mp faithful
        obtain ⟨sameFirst, sameOthers⟩ := List.cons.inj same
        rw [first.eq_of_write other sameFirst, ih further sameOthers]
  · exact fun same => same ▸ rfl

/-- A list can be told from how its elements are written, if each of these can. -/
theorem Faithful.list {write : α → Json} {values : List α}
    (faithful : ∀ value ∈ values, Faithful write value) :
    Faithful (fun values => .array (values.map write)) values where
  exact := by
    rw [exact_array, List.forall_mem_map]
    exact fun value member => (faithful value member).exact
  eq_of_write others same := (map_eq_iff faithful).mp (array.inj same)

/-! ## Leaves -/

/-- A text can be told. -/
theorem faithful_string (value : Text) : Faithful string value :=
  ⟨.string value, fun _ => string.inj⟩

/-- A number can be told. -/
theorem faithful_natural (value : Nat) : Faithful natural value :=
  ⟨.natural value, fun _ => natural.inj⟩

/-- A list of texts can be told. -/
theorem faithful_texts (values : List Text) : Faithful texts values :=
  .list fun value _ => faithful_string value

/-- A comment can be told. -/
theorem faithful_comment (value : Comment) : Faithful comment value where
  exact := by cases value <;> simp [comment, (faithful_texts _).exact]
  eq_of_write other same := by
    cases value with
    | line content =>
      cases other with
      | line otherContent => simpa [comment] using same
      | block otherLines => simp [comment] at same
    | block lines =>
      cases other with
      | line otherContent => simp [comment] at same
      | block otherLines => simpa [comment, (faithful_texts _).write_eq_iff] using same

/-- Comments can be told. -/
theorem faithful_comments (values : Comments) : Faithful comments values :=
  .list fun value _ => faithful_comment value

/-- Comments are exact. -/
@[simp]
theorem exact_comments (values : Comments) : (comments values).Exact :=
  (faithful_comments values).exact

/-- Comments are the same if they are written in the same way. -/
@[simp]
theorem comments_inj {values others : Comments} :
    comments others = comments values ↔ others = values :=
  (faithful_comments values).write_eq_iff

/-! ## Values around others -/

section Parts

variable {write : α → Json}

/-- A value between its comments is exact if the value is. -/
@[simp]
theorem exact_commented {value : Commented α} :
    (commented write value).Exact ↔ (write value.value).Exact := by
  simp [commented]

/-- Values between their comments are exact if the values are. -/
@[simp]
theorem exact_commentedList {values : List (Commented α)} :
    (commentedList write values).Exact ↔ ∀ value ∈ values, (write value.value).Exact := by
  simp [commentedList]

/-- A value that may be absent is exact if it is when it is there. -/
@[simp]
theorem exact_optional {value : Option α} :
    (optional write value).Exact ↔ ∀ inner ∈ value, (write inner).Exact := by
  cases value <;> simp [optional]

/-- A value between its comments can be told, if the value can. -/
theorem faithful_commented {value : Commented α} (faithful : Faithful write value.value) :
    Faithful (commented write) value where
  exact := exact_commented.mpr faithful.exact
  eq_of_write other same := by
    obtain ⟨before, inner, after⟩ := other
    obtain ⟨_, _, _⟩ := value
    simpa [commented, faithful.write_eq_iff] using same

/-- Values between their comments can be told, if the values can. -/
theorem faithful_commentedList {values : List (Commented α)}
    (faithful : ∀ value ∈ values, Faithful write value.value) :
    Faithful (commentedList write) values :=
  .list fun value member => faithful_commented (faithful value member)

/-- Values between their comments that are children of a node can be told, if its children can. -/
theorem faithful_children {children : List α} (faithful : ∀ child ∈ children, Faithful write child)
    (values : List (Commented α)) (areChildren : values.map (·.value) ⊆ children) :
    Faithful (commentedList write) values :=
  faithful_commentedList fun _ member => faithful _ (areChildren (List.mem_map_of_mem member))

/-- A value that may be absent can be told, if the value can and none is written as one that is
absent. -/
theorem faithful_optional {value : Option α} (faithful : ∀ inner ∈ value, Faithful write inner)
    (present : ∀ inner, write inner ≠ null) : Faithful (optional write) value where
  exact := exact_optional.mpr fun inner there => (faithful inner there).exact
  eq_of_write other same := by
    cases value with
    | none =>
      cases other with
      | none => rfl
      | some inner => exact absurd same (present inner)
    | some inner =>
      cases other with
      | none => exact absurd same.symm (present inner)
      | some _ => rw [(faithful inner rfl).eq_of_write _ same]

/-- A changed value is written between its comments as the value that it was made from. -/
@[simp]
theorem commented_map (write : β → Json) (f : α → β) (value : Commented α) :
    commented write (value.map f) = commented (write ∘ f) value := rfl

/-- Changed values are written between their comments as the values that they were made from. -/
@[simp]
theorem commentedList_map (write : β → Json) (f : α → β) (values : List (Commented α)) :
    commentedList write (values.map (Commented.map f)) = commentedList (write ∘ f) values := by
  rw [commentedList, List.map_map]
  rfl

end Parts

end Marginalia.Json
