import Marginalia.Syntax.Module

/-!
# Where expressions stand in a tree

A node holds expressions in slots, one rule for each field of each form of node. A place is the way
down to an expression, slot by slot, and places are in document order: an expression before what
stands inside it, and what stands in an earlier slot before what stands in a later one. Main
statement: walking a tree from its root meets every occurrence of every expression in it once, in
document order.
-/

namespace Marginalia

variable {ε : Type}

/-! ## Slots and places -/

/-- Where an expression stands in a node: in which field, in which entry of a field that has
several, and as which part of an entry that has several. -/
structure Slot where
  /-- The number of the field, among those that hold expressions. -/
  field : Nat
  /-- The number of the entry in the field. -/
  entry : Nat
  /-- The number of the part in the entry. -/
  part : Nat
deriving DecidableEq, Repr

/-- One slot is written before another. -/
def Slot.Before (first second : Slot) : Prop :=
  first.field < second.field ∨ first.field = second.field ∧
    (first.entry < second.entry ∨ first.entry = second.entry ∧ first.part < second.part)

/-- The way from the root of a tree down to an expression in it. -/
abbrev Place := List Slot

/-- One place comes before another in document order: it is above the other one, or it turns off at
an earlier slot. -/
def Place.Before : Place → Place → Prop := List.Lex Slot.Before

/-- The node has the expression in the slot. -/
inductive ExpressionNode.Holds : ExpressionNode ε → Slot → ε → Prop where
  | operand (e : ε) : Holds (.negation e) ⟨0, 0, 0⟩ e
  | low (low high : Commented ε) (multiline : Bool) :
      Holds (.range low high multiline) ⟨0, 0, 0⟩ low.value
  | high (low high : Commented ε) (multiline : Bool) :
      Holds (.range low high multiline) ⟨1, 0, 0⟩ high.value
  | term {terms : List (Commented ε)} {i : Nat} {term : Commented ε} (found : terms[i]? = some term)
      (trailing : Comments) (multiline : Bool) :
      Holds (.list terms trailing multiline) ⟨0, i, 0⟩ term.value
  | head (head : ε) (arguments : List (Commented ε)) (layout : ApplicationLayout) :
      Holds (.application head arguments layout) ⟨0, 0, 0⟩ head
  | argument {arguments : List (Commented ε)} {i : Nat} {argument : Commented ε}
      (found : arguments[i]? = some argument) (head : ε) (layout : ApplicationLayout) :
      Holds (.application head arguments layout) ⟨1, i, 0⟩ argument.value
  | left (left : ε) (clauses : List (Clause Reference ε)) (layout : Layout) :
      Holds (.chain left clauses layout) ⟨0, 0, 0⟩ left
  | right {clauses : List (Clause Reference ε)} {i : Nat} {clause : Clause Reference ε}
      (found : clauses[i]? = some clause) (left : ε) (layout : Layout) :
      Holds (.chain left clauses layout) ⟨1, i, 0⟩ clause.expression
  | firstCondition (first : IfClause ε) (rest : List (Commented (IfClause ε)))
      (final : Commented ε) : Holds (.conditional first rest final) ⟨0, 0, 0⟩ first.condition.value
  | firstBody (first : IfClause ε) (rest : List (Commented (IfClause ε))) (final : Commented ε) :
      Holds (.conditional first rest final) ⟨0, 0, 1⟩ first.body.value
  | furtherCondition {rest : List (Commented (IfClause ε))} {i : Nat}
      {clause : Commented (IfClause ε)} (found : rest[i]? = some clause)
      (first : IfClause ε) (final : Commented ε) :
      Holds (.conditional first rest final) ⟨1, i, 0⟩ clause.value.condition.value
  | furtherBody {rest : List (Commented (IfClause ε))} {i : Nat} {clause : Commented (IfClause ε)}
      (found : rest[i]? = some clause) (first : IfClause ε) (final : Commented ε) :
      Holds (.conditional first rest final) ⟨1, i, 1⟩ clause.value.body.value
  | final (first : IfClause ε) (rest : List (Commented (IfClause ε))) (final : Commented ε) :
      Holds (.conditional first rest final) ⟨2, 0, 0⟩ final.value
  | subject (subject : Commented ε) (multiline : Bool) (branches : List (Located (Branch ε))) :
      Holds (.caseOf subject multiline branches) ⟨0, 0, 0⟩ subject.value
  | branch {branches : List (Located (Branch ε))} {i : Nat} {branch : Located (Branch ε)}
      (found : branches[i]? = some branch) (subject : Commented ε) (multiline : Bool) :
      Holds (.caseOf subject multiline branches) ⟨1, i, 0⟩ branch.value.body
  | definition {entries : List (Located (LetEntry ε))} {i : Nat} {span span' : Span}
      {definition : Definition ε}
      (found : entries[i]? = some ⟨span, .declaration ⟨span', .definition definition⟩⟩)
      (comments : Comments) (body : ε) :
      Holds (.letIn entries comments body) ⟨0, i, 0⟩ definition.body
  | letBody (entries : List (Located (LetEntry ε))) (comments : Comments) (body : ε) :
      Holds (.letIn entries comments body) ⟨1, 0, 0⟩ body
  | lambdaBody (arguments : List (Commented Pattern)) (comments : Comments) (body : ε)
      (multiline : Bool) : Holds (.lambda arguments comments body multiline) ⟨0, 0, 0⟩ body
  | element {elements : List (Commented ε)} {i : Nat} {element : Commented ε}
      (found : elements[i]? = some element) (multiline : Bool) :
      Holds (.tuple elements multiline) ⟨0, i, 0⟩ element.value
  | enclosed (e : Commented ε) : Holds (.parens e) ⟨0, 0, 0⟩ e.value
  | fieldValue {fields : List (Commented (RecordPair ε))} {i : Nat}
      {field : Commented (RecordPair ε)} (found : fields[i]? = some field)
      (base : Option (Commented Text)) (trailing : Comments) (multiline : Bool) :
      Holds (.record base fields trailing multiline) ⟨0, i, 0⟩ field.value.value.value
  | target (target : ε) (field : Text) : Holds (.access target field) ⟨0, 0, 0⟩ target

/-- The expression stands at the place in the other one. -/
inductive Expression.Occurs : Expression → Place → Expression → Prop where
  | here (expression : Expression) : Occurs expression [] expression
  | inside {outer child inner : Expression} {slot : Slot} {place : Place}
      (holds : outer.node.Holds slot child) (occurs : Occurs child place inner) :
      Occurs outer (slot :: place) inner

/-- The expression stands at the place in a definition of the module. The first step of the place is
the entry of the module. -/
inductive Module.Occurs (module : Module) : Place → Expression → Prop where
  | inside {i : Nat} {span : Span} {definition : Definition Expression}
      {place : Place} {inner : Expression}
      (found : module.body[i]? = some ⟨span, .declaration (.definition definition)⟩)
      (occurs : definition.body.Occurs place inner) : Occurs module (⟨0, i, 0⟩ :: place) inner

/-! ## Slots in order -/

/-- What stands in some fields, each made of entries with parts, with the slots. -/
def slotted (fields : List (List (List ε))) : List (Slot × ε) :=
  fields.zipIdx.flatMap fun field => field.1.zipIdx.flatMap fun entry =>
    entry.1.zipIdx.map fun part =>
    (⟨field.2, entry.2, part.2⟩, part.1)

/-- What stands in a slot. -/
theorem mem_slotted {fields : List (List (List ε))} {slot : Slot} {e : ε} :
    (slot, e) ∈ slotted fields ↔ ∃ entries parts, fields[slot.field]? = some entries ∧
      entries[slot.entry]? = some parts ∧ parts[slot.part]? = some e := by
  simp only [slotted, List.mem_flatMap, List.mem_map, List.mem_zipIdx_iff_getElem?, Prod.exists,
    Prod.mk.injEq]
  constructor
  · rintro ⟨entries, field, inFields, parts, entry, inEntries, e, part, inParts, rfl, rfl⟩
    exact ⟨entries, parts, inFields, inEntries, inParts⟩
  · rintro ⟨entries, parts, inFields, inEntries, inParts⟩
    exact ⟨entries, slot.field, inFields, parts, slot.entry, inEntries, e, slot.part,
      inParts, rfl, rfl⟩

/-- Numbered entries are in the order of their numbers. -/
theorem pairwise_zipIdx {α : Type} (entries : List α) :
    entries.zipIdx.Pairwise fun first second => first.2 < second.2 := by
  rw [← List.pairwise_map, List.zipIdx_map_snd]
  exact List.pairwise_lt_range'

/-- Slots are listed in order. -/
theorem pairwise_slotted (fields : List (List (List ε))) :
    (slotted fields).Pairwise fun first second => first.1.Before second.1 := by
  refine List.pairwise_flatMap.mpr
    ⟨fun field _ => List.pairwise_flatMap.mpr ⟨fun entry _ => ?_, ?_⟩, ?_⟩
  · refine List.pairwise_map.mpr ((pairwise_zipIdx entry.1).imp fun earlier => ?_)
    exact .inr ⟨rfl, .inr ⟨rfl, earlier⟩⟩
  · refine (pairwise_zipIdx field.1).imp fun earlier first inFirst second inSecond => ?_
    obtain ⟨_, _, rfl⟩ := List.mem_map.mp inFirst
    obtain ⟨_, _, rfl⟩ := List.mem_map.mp inSecond
    exact .inr ⟨rfl, .inl earlier⟩
  · refine (pairwise_zipIdx fields).imp fun earlier first inFirst second inSecond => ?_
    obtain ⟨_, -, inFirst⟩ := List.mem_flatMap.mp inFirst
    obtain ⟨_, -, inSecond⟩ := List.mem_flatMap.mp inSecond
    obtain ⟨_, _, rfl⟩ := List.mem_map.mp inFirst
    obtain ⟨_, _, rfl⟩ := List.mem_map.mp inSecond
    exact .inl earlier

/-- Without the slots, everything is listed that stands in the fields. -/
theorem map_slotted (fields : List (List (List ε))) :
    (slotted fields).map (·.2) = fields.flatten.flatten := by
  have numbered : ∀ {α β : Type} (entries : List α) (f : α → List β),
      (entries.zipIdx.flatMap fun entry => f entry.1) = entries.flatMap f := by
    intro α β entries f
    rw [← List.flatMap_map, List.zipIdx_map_fst]
  have parts : ∀ entries : List (List ε), ∀ field : Nat,
      (entries.zipIdx.flatMap fun entry => entry.1.zipIdx.map fun part =>
        ((⟨field, entry.2, part.2⟩, part.1) : Slot × ε)).map (·.2) = entries.flatten := by
    intro entries field
    rw [List.map_flatMap]
    simp only [List.map_map, Function.comp_def, List.zipIdx_map_fst]
    exact (numbered entries id).trans List.flatMap_id
  rw [slotted, List.map_flatMap]
  simp only [parts]
  rw [numbered fields List.flatten, List.flatMap_def, List.flatten_flatten]

/-! ## Slots of nodes -/

/-- The fields of a node that hold expressions. Only a condition has entries of several parts, and
only entries that are definitions have a part at all in a `let`. -/
def ExpressionNode.fields : ExpressionNode ε → List (List (List ε))
  | negation operand => [[[operand]]]
  | range low high _ => [[[low.value]], [[high.value]]]
  | list terms _ _ => [terms.map ([·.value])]
  | application head arguments _ => [[[head]], arguments.map ([·.value])]
  | chain left clauses _ => [[[left]], clauses.map ([·.expression])]
  | conditional first rest final => [[first.children], rest.map (·.value.children), [[final.value]]]
  | caseOf subject _ branches => [[[subject.value]], branches.map ([·.value.body])]
  | letIn entries _ body => [entries.map (·.value.bodies), [[body]]]
  | lambda _ _ body _ => [[[body]]]
  | tuple elements _ => [elements.map ([·.value])]
  | parens expression => [[[expression.value]]]
  | record _ fields _ _ => [fields.map ([·.value.value.value])]
  | access target _ => [[[target]]]
  | literal _ | reference _ | unit _ | accessor _ | tupleFunction _ | shader _ => []

/-- The fields of a node hold its children, in source order. -/
theorem ExpressionNode.flatten_fields (node : ExpressionNode ε) :
    node.fields.flatten.flatten = node.children := by
  cases node <;> simp [fields, children, ← List.flatMap_def, ← List.map_eq_flatMap]

/-- A field with one entry of one part has one slot. -/
theorem eq_of_alone {entry part : Nat} {parts : List ε} {e found : ε}
    (inEntries : [[e]][entry]? = some parts) (inParts : parts[part]? = some found) :
    entry = 0 ∧ part = 0 ∧ e = found := by
  cases entry with
  | zero =>
    obtain rfl : [e] = parts := by simpa using inEntries
    cases part with
    | zero => exact ⟨rfl, rfl, by simpa using inParts⟩
    | succ part => simp at inParts
  | succ entry => simp at inEntries

/-- A field with entries of one part has one slot for each. -/
theorem exists_of_each {α : Type} {entry part : Nat} {entries : List α} {f : α → ε} {parts : List ε}
    {found : ε} (inEntries : (entries.map ([f ·]))[entry]? = some parts)
    (inParts : parts[part]? = some found) :
    ∃ a, entries[entry]? = some a ∧ part = 0 ∧ f a = found := by
  rw [List.getElem?_map] at inEntries
  obtain ⟨a, inside, rfl⟩ := Option.map_eq_some_iff.mp inEntries
  obtain ⟨-, rfl, same⟩ := eq_of_alone (show [[f a]][0]? = some [f a] from rfl) inParts
  exact ⟨a, inside, rfl, same⟩

/-- What stands in a slot of the fields of a node, the node holds. -/
theorem ExpressionNode.holds_of_fields {node : ExpressionNode ε} {field entry part : Nat}
    {entries : List (List ε)} {parts : List ε} {e : ε}
    (inFields : node.fields[field]? = some entries) (inEntries : entries[entry]? = some parts)
    (inParts : parts[part]? = some e) : node.Holds ⟨field, entry, part⟩ e := by
  -- The fields are matched by number, so that what stands in each is known.
  cases node with
  | negation operand =>
    match field, inFields with
    | 0, rfl =>
      obtain ⟨rfl, rfl, rfl⟩ := eq_of_alone inEntries inParts
      exact .operand _
  | range low high multiline =>
    match field, inFields with
    | 0, rfl =>
      obtain ⟨rfl, rfl, rfl⟩ := eq_of_alone inEntries inParts
      exact .low ..
    | 1, rfl =>
      obtain ⟨rfl, rfl, rfl⟩ := eq_of_alone inEntries inParts
      exact .high ..
  | list terms trailing multiline =>
    match field, inFields with
    | 0, rfl =>
      obtain ⟨term, found, rfl, rfl⟩ := exists_of_each inEntries inParts
      exact .term found ..
  | application head arguments layout =>
    match field, inFields with
    | 0, rfl =>
      obtain ⟨rfl, rfl, rfl⟩ := eq_of_alone inEntries inParts
      exact .head ..
    | 1, rfl =>
      obtain ⟨argument, found, rfl, rfl⟩ := exists_of_each inEntries inParts
      exact .argument found ..
  | chain left clauses layout =>
    match field, inFields with
    | 0, rfl =>
      obtain ⟨rfl, rfl, rfl⟩ := eq_of_alone inEntries inParts
      exact .left ..
    | 1, rfl =>
      obtain ⟨clause, found, rfl, rfl⟩ := exists_of_each inEntries inParts
      exact .right found ..
  | conditional first rest final =>
    match field, inFields with
    | 0, rfl =>
      match entry, part, inEntries, inParts with
      | 0, 0, rfl, rfl => exact .firstCondition ..
      | 0, 1, rfl, rfl => exact .firstBody ..
    | 1, rfl =>
      rw [List.getElem?_map] at inEntries
      obtain ⟨clause, found, rfl⟩ := Option.map_eq_some_iff.mp inEntries
      match part, inParts with
      | 0, rfl => exact .furtherCondition found ..
      | 1, rfl => exact .furtherBody found ..
    | 2, rfl =>
      obtain ⟨rfl, rfl, rfl⟩ := eq_of_alone inEntries inParts
      exact .final ..
  | caseOf subject multiline branches =>
    match field, inFields with
    | 0, rfl =>
      obtain ⟨rfl, rfl, rfl⟩ := eq_of_alone inEntries inParts
      exact .subject ..
    | 1, rfl =>
      obtain ⟨branch, found, rfl, rfl⟩ := exists_of_each inEntries inParts
      exact .branch found ..
  | letIn lets comments body =>
    match field, inFields with
    | 0, rfl =>
      rw [List.getElem?_map] at inEntries
      obtain ⟨⟨span, letEntry⟩, found, rfl⟩ := Option.map_eq_some_iff.mp inEntries
      match letEntry, part, inParts with
      | .declaration ⟨_, .definition definition⟩, 0, rfl => exact .definition found ..
    | 1, rfl =>
      obtain ⟨rfl, rfl, rfl⟩ := eq_of_alone inEntries inParts
      exact .letBody ..
  | lambda arguments comments body multiline =>
    match field, inFields with
    | 0, rfl =>
      obtain ⟨rfl, rfl, rfl⟩ := eq_of_alone inEntries inParts
      exact .lambdaBody ..
  | tuple elements multiline =>
    match field, inFields with
    | 0, rfl =>
      obtain ⟨element, found, rfl, rfl⟩ := exists_of_each inEntries inParts
      exact .element found ..
  | parens enclosed =>
    match field, inFields with
    | 0, rfl =>
      obtain ⟨rfl, rfl, rfl⟩ := eq_of_alone inEntries inParts
      exact .enclosed _
  | record base fields trailing multiline =>
    match field, inFields with
    | 0, rfl =>
      obtain ⟨field, found, rfl, rfl⟩ := exists_of_each inEntries inParts
      exact .fieldValue found ..
  | access target name =>
    match field, inFields with
    | 0, rfl =>
      obtain ⟨rfl, rfl, rfl⟩ := eq_of_alone inEntries inParts
      exact .target ..
  | _ => cases inFields

/-- The slots of a node are those of its fields. -/
theorem ExpressionNode.holds_iff {node : ExpressionNode ε} {slot : Slot} {e : ε} :
    node.Holds slot e ↔ (slot, e) ∈ slotted node.fields := by
  rw [mem_slotted]
  constructor
  · intro holds
    cases holds <;> simp [fields, IfClause.children, LetEntry.bodies, Declaration.bodies, *]
  · rintro ⟨entries, parts, inFields, inEntries, inParts⟩
    exact holds_of_fields inFields inEntries inParts

/-! ## Walking a tree -/

/-- What stands in a slot of a node is one of its children. -/
theorem ExpressionNode.mem_children_of_slotted {node : ExpressionNode ε} {found : Slot × ε}
    (member : found ∈ slotted node.fields) : found.2 ∈ node.children := by
  rw [← node.flatten_fields, ← map_slotted]
  exact List.mem_map_of_mem member

/-- An expression and everything nested in it, each with its place. -/
def Expression.occurrences (expression : Expression) : List (Place × Expression) :=
  ([], expression) :: (slotted expression.node.fields).attach.flatMap fun found =>
    found.1.2.occurrences.map fun inner => (found.1.1 :: inner.1, inner.2)
termination_by sizeOf expression
decreasing_by exact sizeOf_lt_of_mem_children (ExpressionNode.mem_children_of_slotted found.2)

/-- What is nested in some fields, each with its place. -/
def occurrencesIn (fields : List (List (List Expression))) : List (Place × Expression) :=
  (slotted fields).flatMap fun found => found.2.occurrences.map fun inner =>
    (found.1 :: inner.1, inner.2)

/-- What is occurrences in an expression is itself and what is occurrences in its fields. -/
theorem Expression.occurrences_eq (expression : Expression) :
    expression.occurrences = ([], expression) :: occurrencesIn expression.node.fields := by
  rw [occurrences, occurrencesIn,
    List.flatMap_subtype (g := fun found => found.2.occurrences.map fun inner =>
    (found.1 :: inner.1, inner.2)) fun _ _ => rfl, List.unattach_attach]

/-- Without the places, what is nested in some fields is what a walk through them meets. -/
theorem map_occurrencesIn {fields : List (List (List Expression))}
    (walks : ∀ e ∈ fields.flatten.flatten, e.occurrences.map (·.2) = e.preorder) :
    (occurrencesIn fields).map (·.2) = fields.flatten.flatten.flatMap Expression.preorder := by
  rw [occurrencesIn, List.map_flatMap, ← map_slotted, List.flatMap_map, List.flatMap_def,
    List.flatMap_def]
  refine congrArg List.flatten (List.map_congr_left fun found member => ?_)
  rw [List.map_map]
  exact walks found.2 (map_slotted fields ▸ List.mem_map_of_mem member)

/-- Without the places, an expression and what is nested in it are what a walk meets. -/
theorem Expression.map_occurrences (expression : Expression) :
    expression.occurrences.map (·.2) = expression.preorder := by
  induction size : sizeOf expression using Nat.strongRecOn generalizing expression with
  | _ size ih =>
    rw [occurrences_eq, preorder_eq, List.map_cons, map_occurrencesIn,
      expression.node.flatten_fields]
    · rfl
    · intro e member
      rw [expression.node.flatten_fields] at member
      exact ih (sizeOf e) (size ▸ sizeOf_lt_of_mem_children member) e rfl

/-- What is nested in some fields is occurrences in document order, if what is nested in each
expression there is. -/
theorem pairwise_occurrencesIn {fields : List (List (List Expression))} (ordered : ∀ e ∈
      fields.flatten.flatten, e.occurrences.Pairwise fun first second => first.1.Before second.1) :
    (occurrencesIn fields).Pairwise fun first second => first.1.Before second.1 := by
  refine List.pairwise_flatMap.mpr ⟨fun found member => ?_, ?_⟩
  · refine List.pairwise_map.mpr
      (.imp ?_ (ordered found.2 (map_slotted fields ▸ List.mem_map_of_mem member)))
    exact fun earlier => .cons earlier
  · refine (pairwise_slotted fields).imp fun earlier first inFirst second inSecond => ?_
    obtain ⟨_, _, rfl⟩ := List.mem_map.mp inFirst
    obtain ⟨_, _, rfl⟩ := List.mem_map.mp inSecond
    exact .rel earlier

/-- An expression and what is nested in it are occurrences in document order. -/
theorem Expression.pairwise_occurrences (expression : Expression) :
    expression.occurrences.Pairwise fun first second => first.1.Before second.1 := by
  induction size : sizeOf expression using Nat.strongRecOn generalizing expression with
  | _ size ih =>
    rw [occurrences_eq]
    refine List.pairwise_cons.mpr ⟨fun found member => ?_,
      pairwise_occurrencesIn fun e member => ?_⟩
    · obtain ⟨_, -, inside⟩ := List.mem_flatMap.mp member
      obtain ⟨_, -, rfl⟩ := List.mem_map.mp inside
      exact .nil
    · rw [expression.node.flatten_fields] at member
      exact ih (sizeOf e) (size ▸ sizeOf_lt_of_mem_children member) e rfl

/-- The places of an expression and of what is nested in it are where these occur. -/
theorem Expression.mem_occurrences {expression inner : Expression} {place : Place} :
    (place, inner) ∈ expression.occurrences ↔ expression.Occurs place inner := by
  induction place generalizing expression with
  | nil =>
    rw [occurrences_eq, occurrencesIn]
    constructor
    · intro member
      obtain ⟨-, rfl⟩ : True ∧ inner = expression := by simpa using member
      exact .here _
    · rintro ⟨⟩
      exact .head _
  | cons slot place ih =>
    rw [occurrences_eq, occurrencesIn]
    constructor
    · intro member
      obtain ⟨_, child, inSlot, inChild, rfl⟩ : ∃ other child,
          (other, child) ∈ slotted expression.node.fields ∧ (place, inner) ∈ child.occurrences ∧
          other = slot := by simpa using member
      exact .inside (ExpressionNode.holds_iff.mpr inSlot) (ih.mp inChild)
    · rintro (_ | ⟨holds, occurs⟩)
      refine .tail _ (List.mem_flatMap.mpr ⟨_, ExpressionNode.holds_iff.mp holds, ?_⟩)
      exact List.mem_map.mpr ⟨_, ih.mpr occurs, rfl⟩

/-! ## Walking a module -/

/-- The expressions in the definitions of a module, each with its place. -/
def Module.occurrences (module : Module) : List (Place × Expression) :=
  occurrencesIn [module.body.map (·.value.bodies)]

/-- The expressions that a walk through the definitions of a module meets are those in it, in
document order. -/
theorem Module.map_occurrences (module : Module) :
    module.occurrences.map (·.2) = module.expressions.flatMap Expression.preorder := by
  rw [occurrences, map_occurrencesIn fun e _ => e.map_occurrences, List.flatten_singleton,
    ← List.flatMap_def]
  rfl

/-- The expressions in a module are occurrences in document order. -/
theorem Module.pairwise_occurrences (module : Module) :
    module.occurrences.Pairwise fun first second => first.1.Before second.1 :=
  pairwise_occurrencesIn fun e _ => e.pairwise_occurrences

/-- The places of the expressions in a module are where these occur. -/
theorem Module.mem_occurrences {module : Module} {inner : Expression} {place : Place} :
    (place, inner) ∈ module.occurrences ↔ module.Occurs place inner := by
  simp only [occurrences, occurrencesIn, List.mem_flatMap, List.mem_map, Prod.exists,
    Prod.mk.injEq, mem_slotted]
  constructor
  · rintro ⟨⟨field, entry, part⟩, body, ⟨entries, parts, inFields, inEntries, inParts⟩, way, inner,
      inBody, rfl, rfl⟩
    match field, inFields with
    | 0, rfl =>
      rw [List.getElem?_map] at inEntries
      obtain ⟨⟨span, topLevel⟩, found, rfl⟩ := Option.map_eq_some_iff.mp inEntries
      match topLevel, part, inParts with
      | .declaration (.definition definition), 0, rfl =>
        exact .inside found (Expression.mem_occurrences.mp inBody)
  · rintro ⟨found, occurs⟩
    refine ⟨_, _, ⟨_, [_], rfl, ?_, rfl⟩, _, _, Expression.mem_occurrences.mpr occurs, rfl, rfl⟩
    simp [found, TopLevel.bodies, Declaration.bodies]

end Marginalia
