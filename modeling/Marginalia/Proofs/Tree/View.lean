import Marginalia.Proofs.Tree.Children

/-!
# Views of trees

A view is a way of looking at trees: what it makes of positions, and whether it shows comments. Two
trees are alike under two views when both look the same. A view that hides comments empties every
list of comments and leaves out the comments that are entries of a `let` or of a module.
-/

namespace Marginalia

variable {α β γ ω π ρ τ ε : Type}

/-- A way of looking at trees. -/
structure View where
  /-- What is seen of a position. -/
  position : Position → Position
  /-- Comments are seen. -/
  showsComments : Bool

namespace View

/-- Everything is seen as it is. -/
def full : View := ⟨id, true⟩

/-- Everything but comments is seen as it is. -/
def bare : View := ⟨id, false⟩

/-- What is seen of a span. -/
def span (view : View) (span : Span) : Span := ⟨view.position span.start, view.position span.stop⟩

/-- What is seen of comments. -/
def comments (view : View) (comments : Comments) : Comments :=
  if view.showsComments then comments else []

/-- The full view leaves spans as they are. -/
@[simp]
theorem span_full (s : Span) : full.span s = s := rfl

/-- The full view leaves comments as they are. -/
@[simp]
theorem comments_full (c : Comments) : full.comments c = c := rfl

/-- No view shows comments where there are none. -/
@[simp]
theorem comments_nil (view : View) : view.comments [] = [] := by simp [comments]

/-- Comments one after the other are seen one after the other. -/
@[simp]
theorem comments_append (view : View) (first second : Comments) :
    view.comments (first ++ second) = view.comments first ++ view.comments second := by
  unfold comments
  split <;> simp

end View

/-! ## Values with comments or a place -/

/-- What is seen of a value between its comments. -/
@[simp]
def Commented.view (view : View) (inner : α → β) (commented : Commented α) : Commented β :=
  ⟨view.comments commented.before, inner commented.value, view.comments commented.after⟩

/-- What is seen of a value and its place. -/
@[simp]
def Located.view (view : View) (inner : α → β) (located : Located α) : Located β :=
  ⟨view.span located.span, inner located.value⟩

/-- What is seen of entries with a place, of which some may not be seen at all. -/
def Located.viewAll (view : View) (inner? : α → Option β) (entries : List (Located α)) :
    List (Located β) :=
  entries.filterMap fun entry => (inner? entry.value).map (Located.mk (view.span entry.span))

/-- Entries are seen one after the other. -/
theorem Located.viewAll_cons (view : View) (inner? : α → Option β) (entry : Located α)
    (rest : List (Located α)) :
    viewAll view inner? (entry :: rest) = ((inner? entry.value).map
      (Located.mk (view.span entry.span))).toList ++ viewAll view inner? rest := by
  unfold viewAll
  rw [List.filterMap_cons]
  cases inner? entry.value <;> rfl

/-- Runs of entries are seen one after the other. -/
theorem Located.viewAll_append (view : View) (inner? : α → Option β)
    (first second : List (Located α)) :
    viewAll view inner? (first ++ second) = viewAll view inner? first ++
      viewAll view inner? second :=
  List.filterMap_append

/-- All runs of entries are seen one after the other. -/
theorem Located.viewAll_flatten (view : View) (inner? : α → Option β)
    (blocks : List (List (Located α))) :
    viewAll view inner? blocks.flatten = (blocks.map (viewAll view inner?)).flatten :=
  List.filterMap_flatten

/-- Comments of one place are seen as entries, where comments are seen. -/
theorem Located.viewAll_comments {view : View} {inner? : α → Option β} {wrap : Comment → α}
    {wrap' : Comment → β} (seen : ∀ comment, inner? (wrap comment) = if view.showsComments then some
      (wrap' comment) else none) (span : Span) (comments : Comments) :
    viewAll view inner? (comments.map fun comment => ⟨span, wrap comment⟩) =
      (view.comments comments).map fun comment => ⟨view.span span, wrap' comment⟩ := by
  unfold viewAll View.comments
  induction comments with
  | nil => cases view.showsComments <;> rfl
  | cons comment rest ih =>
    rw [List.map_cons, List.filterMap_cons, ih, seen]
    cases view.showsComments <;> rfl

/-- Entries that are all fully seen as they are are seen as they are together. -/
theorem Located.viewAll_full {inner? : α → Option α} {entries : List (Located α)}
    (same : ∀ entry ∈ entries, inner? entry.value = some entry.value) :
    viewAll .full inner? entries = entries := by
  induction entries with
  | nil => rfl
  | cons entry rest ih =>
    rw [viewAll_cons, same entry (.head _), ih fun other member => same other (.tail _ member)]
    rfl

/-- A list whose entries are all seen as they are is seen as it is. -/
theorem map_eq_self {items : List α} {f : α → α} (same : ∀ item ∈ items, f item = item) :
    items.map f = items :=
  (List.map_congr_left (g := id) same).trans (List.map_id items)

/-- Values between their comments are fully seen as they are, if the values are. -/
theorem Commented.map_view_full {items : List (Commented α)} {inner : α → α}
    (same : ∀ value ∈ items.map (·.value), inner value = value) :
    items.map (view .full inner) = items := by
  refine map_eq_self fun item member => ?_
  have seen := same item.value (List.mem_map_of_mem member)
  simp [seen]

/-! ## Patterns -/

/-- What is seen of a node of a pattern. -/
def PatternNode.view (view : View) (inner : π → ρ) : PatternNode π → PatternNode ρ
  | anything => anything
  | unit comments => unit (view.comments comments)
  | literal l => literal l
  | name n => name n
  | operator symbol => operator symbol
  | data tag arguments => data tag (arguments.map (Commented.view view inner))
  | parens pattern => parens (pattern.view view inner)
  | tuple elements => tuple (elements.map (Commented.view view inner))
  | emptyList comments => emptyList (view.comments comments)
  | list elements => list (elements.map (Commented.view view inner))
  | cons first rest => cons (first.view view inner) (rest.map (Commented.view view inner))
  | record fields => record (fields.map (Commented.view view id))
  | named pattern n => named (pattern.view view inner) (n.view view id)

/-- Changed children are seen as a change of what is seen. -/
theorem PatternNode.view_map (view : View) (inner : ρ → γ) (f : π → ρ) (node : PatternNode π) :
    (node.map f).view view inner = node.view view (inner ∘ f) := by
  rw [map_eq]
  cases node <;> simp [PatternNode.view, Commented.map, Function.comp_def]

/-- What is seen of a pattern. -/
def Pattern.view (view : View) (pattern : Pattern) : Pattern :=
  pattern.fold fun span node => ⟨view.span span, node.view view id⟩

/-- A pattern is seen as its node is. -/
@[simp]
theorem Pattern.view_mk (view : View) (span : Span) (node : PatternNode Pattern) :
    Pattern.view view ⟨span, node⟩ = ⟨view.span span, node.view view (Pattern.view view)⟩ := by
  rw [Pattern.view, fold_eq, PatternNode.view_map]
  rfl

/-- What is seen of a pattern is what is seen of its span and of its node. -/
theorem Pattern.view_eq (view : View) (pattern : Pattern) :
    pattern.view view = ⟨view.span pattern.span, pattern.node.view view (Pattern.view view)⟩ := by
  obtain ⟨span, node⟩ := pattern
  exact view_mk view span node

/-- What holds of a pattern whenever it holds of the patterns directly inside it holds of every
pattern. -/
theorem Pattern.induction {motive : Pattern → Prop}
    (step : ∀ span node, (∀ inner ∈ node.children, motive inner) → motive ⟨span, node⟩)
    (pattern : Pattern) : motive pattern := by
  induction size : sizeOf pattern using Nat.strongRecOn generalizing pattern with
  | _ bound ih =>
    obtain ⟨span, node⟩ := pattern
    refine step span node fun inner member => ?_
    have smaller := PatternNode.sizeOf_lt_of_mem member
    refine ih (sizeOf inner) ?_ inner rfl
    rw [← size, mk.sizeOf_spec]
    omega

/-- A value between its comments is fully seen as it is, if the value is. -/
theorem Commented.view_full {commented : Commented α} {inner : α → α}
    (same : inner commented.value = commented.value) : commented.view .full inner = commented := by
  simp [same]

/-- A node of a pattern is fully seen as it is, if its children are. -/
theorem PatternNode.view_full {inner : π → π} {node : PatternNode π}
    (same : ∀ child ∈ node.children, inner child = child) : node.view .full inner = node := by
  cases node with
  | data tag arguments => rw [PatternNode.view, Commented.map_view_full same]
  | tuple elements => rw [PatternNode.view, Commented.map_view_full same]
  | list elements => rw [PatternNode.view, Commented.map_view_full same]
  | parens pattern => rw [PatternNode.view, Commented.view_full (same _ (.head _))]
  | named pattern n =>
    rw [PatternNode.view, Commented.view_full (same _ (.head _)), Commented.view_full rfl]
  | cons first rest =>
    obtain ⟨sameFirst, sameRest⟩ := List.forall_mem_cons.mp same
    rw [PatternNode.view, Commented.view_full sameFirst, Commented.map_view_full sameRest]
  | record fields => exact congrArg record (Commented.map_view_full fun _ _ => rfl)
  | _ => rfl

/-- A pattern is fully seen as it is. -/
theorem Pattern.view_full (pattern : Pattern) : pattern.view .full = pattern := by
  induction pattern using Pattern.induction with
  | step span node same => rw [view_mk, PatternNode.view_full same, View.span_full]

/-! ## Types -/

/-- What is seen of a field of a record type. -/
def RecordTypeField.view (view : View) (inner : τ → ρ) (field : RecordTypeField τ) :
    RecordTypeField ρ :=
  ⟨field.name.view view id, field.type.view view inner⟩

/-- What is seen of a node of a type. -/
def TypeNode.view (view : View) (inner : τ → ρ) : TypeNode τ → TypeNode ρ
  | unit comments => unit (view.comments comments)
  | name n => name n
  | construction tag arguments => construction tag (arguments.map (Commented.view view inner))
  | parens type => parens (type.view view inner)
  | tuple elements => tuple (elements.map (Commented.view view inner))
  | record base fields trailing multiline =>
    record (base.map (Commented.view view id)) (fields.map
        (Commented.view view (RecordTypeField.view view inner))) (view.comments trailing) multiline
  | function first rest multiline =>
    function (first.view view inner) (rest.map (Commented.view view inner)) multiline

/-- Changed children are seen as a change of what is seen. -/
theorem TypeNode.view_map (view : View) (inner : ρ → γ) (f : τ → ρ) (node : TypeNode τ) :
    (node.map f).view view inner = node.view view (inner ∘ f) := by
  rw [map_eq]
  cases node <;> simp [TypeNode.view, Commented.map, RecordTypeField.map, RecordTypeField.view,
    Function.comp_def]

/-- What is seen of a type. -/
def TypeExpression.view (view : View) (type : TypeExpression) : TypeExpression :=
  type.fold fun span node => ⟨view.span span, node.view view id⟩

/-- A type is seen as its node is. -/
@[simp]
theorem TypeExpression.view_mk (view : View) (span : Span) (node : TypeNode TypeExpression) :
    TypeExpression.view view ⟨span, node⟩ =
      ⟨view.span span, node.view view (TypeExpression.view view)⟩ := by
  rw [TypeExpression.view, fold_eq, TypeNode.view_map]
  rfl

/-- What holds of a type whenever it holds of the types directly inside it holds of every type. -/
theorem TypeExpression.induction {motive : TypeExpression → Prop}
    (step : ∀ span node, (∀ inner ∈ node.children, motive inner) → motive ⟨span, node⟩)
    (type : TypeExpression) : motive type := by
  induction size : sizeOf type using Nat.strongRecOn generalizing type with
  | _ bound ih =>
    obtain ⟨span, node⟩ := type
    refine step span node fun inner member => ?_
    have smaller := TypeNode.sizeOf_lt_of_mem member
    refine ih (sizeOf inner) ?_ inner rfl
    rw [← size, mk.sizeOf_spec]
    omega

/-- The name of a record is fully seen as it is. -/
theorem map_view_full_base (base : Option (Commented Text)) :
    base.map (Commented.view .full id) = base := by
  cases base <;> rfl

/-- A node of a type is fully seen as it is, if its children are. -/
theorem TypeNode.view_full {inner : τ → τ} {node : TypeNode τ}
    (same : ∀ child ∈ node.children, inner child = child) : node.view .full inner = node := by
  cases node with
  | construction tag arguments => rw [TypeNode.view, Commented.map_view_full same]
  | tuple elements => rw [TypeNode.view, Commented.map_view_full same]
  | parens type => rw [TypeNode.view, Commented.view_full (same _ (.head _))]
  | record base fields trailing multiline =>
    have sameFields :
        fields.map (Commented.view .full (RecordTypeField.view .full inner)) = fields := by
      refine map_eq_self fun field member => Commented.view_full ?_
      have seen := same field.value.type.value (List.mem_map.mpr ⟨field, member, rfl⟩)
      rw [RecordTypeField.view, Commented.view_full rfl, Commented.view_full seen]
    rw [TypeNode.view, sameFields, map_view_full_base, View.comments_full]
  | function first rest multiline =>
    obtain ⟨sameFirst, sameRest⟩ := List.forall_mem_cons.mp same
    rw [TypeNode.view, Commented.view_full sameFirst, Commented.map_view_full sameRest]
  | _ => rfl

/-- A type is fully seen as it is. -/
theorem TypeExpression.view_full (type : TypeExpression) : type.view .full = type := by
  induction type using TypeExpression.induction with
  | step span node same => rw [view_mk, TypeNode.view_full same, View.span_full]

/-! ## Expressions -/

/-- What is seen of a clause of a chain. -/
def Clause.view (view : View) (inner : ε → ρ) (clause : Clause ω ε) : Clause ω ρ :=
  ⟨view.comments clause.preOperator, clause.operator.view view id,
    view.comments clause.preExpression, inner clause.expression⟩

/-- What is seen of a condition and its body. -/
def IfClause.view (view : View) (inner : ε → ρ) (clause : IfClause ε) : IfClause ρ :=
  ⟨clause.condition.view view inner, clause.body.view view inner⟩

/-- What is seen of a branch. -/
def Branch.view (view : View) (inner : ε → ρ) (branch : Branch ε) : Branch ρ :=
  ⟨view.comments branch.beforePattern, branch.pattern.view view, view.comments branch.beforeArrow,
    view.comments branch.afterArrow, inner branch.body⟩

/-- What is seen of a field of a record. -/
def RecordPair.view (view : View) (inner : ε → ρ) (pair : RecordPair ε) : RecordPair ρ :=
  ⟨pair.key.view view id, pair.value.view view inner, pair.multiline⟩

/-- What is seen of a definition. -/
def Definition.view (view : View) (inner : ε → ρ) (definition : Definition ε) : Definition ρ :=
  ⟨definition.pattern.view view, definition.arguments.map (Commented.view view (Pattern.view view)),
    view.comments definition.comments, inner definition.body⟩

/-- What is seen of a signature. -/
def Signature.view (view : View) (signature : Signature) : Signature :=
  ⟨signature.name.view view id, signature.type.view view (TypeExpression.view view)⟩

/-- What is seen of a declaration. -/
def Declaration.view (view : View) (inner : ε → ρ) : Declaration ε → Declaration ρ
  | definition d => definition (d.view view inner)
  | signature s => signature (s.view view)

/-- What is seen of an entry of a `let`; where no comments are seen, nothing is seen of one. -/
def LetEntry.view? (view : View) (inner : ε → ρ) : LetEntry ε → Option (LetEntry ρ)
  | declaration d => some (declaration (d.view view (Declaration.view view inner)))
  | comment c => if view.showsComments then some (comment c) else none

/-- What is seen of a node of an expression. -/
def ExpressionNode.view (view : View) (inner : ε → ρ) : ExpressionNode ε → ExpressionNode ρ
  | literal l => literal l
  | reference r => reference r
  | negation operand => negation (inner operand)
  | range low high multiline => range (low.view view inner) (high.view view inner) multiline
  | list terms trailing multiline =>
    list (terms.map (Commented.view view inner)) (view.comments trailing) multiline
  | application head arguments layout =>
    application (inner head) (arguments.map (Commented.view view inner)) layout
  | chain left clauses layout => chain (inner left) (clauses.map (Clause.view view inner)) layout
  | conditional first rest final =>
    conditional (first.view view inner) (rest.map (Commented.view view (IfClause.view view inner)))
      (final.view view inner)
  | caseOf subject multilineSubject branches =>
    caseOf (subject.view view inner) multilineSubject
      (branches.map (Located.view view (Branch.view view inner)))
  | letIn entries bodyComments body =>
    letIn (Located.viewAll view (LetEntry.view? view inner) entries)
        (view.comments bodyComments) (inner body)
  | lambda arguments comments body multiline =>
    lambda (arguments.map (Commented.view view (Pattern.view view))) (view.comments comments)
      (inner body) multiline
  | tuple elements multiline => tuple (elements.map (Commented.view view inner)) multiline
  | parens expression => parens (expression.view view inner)
  | unit comments => unit (view.comments comments)
  | record base fields trailing multiline =>
    record (base.map (Commented.view view id)) (fields.map
        (Commented.view view (RecordPair.view view inner))) (view.comments trailing) multiline
  | access target field => access (inner target) field
  | accessor field => accessor field
  | tupleFunction arity => tupleFunction arity
  | shader source => shader source

/-- A changed declaration is seen as a change of what is seen. -/
theorem Declaration.view_map (view : View) (inner : ρ → γ) (f : ε → ρ)
    (declaration : Declaration ε) :
    (declaration.map f).view view inner = declaration.view view (inner ∘ f) := by
  rw [map_eq]
  cases declaration <;> rfl

/-- A changed entry is seen as a change of what is seen. -/
theorem LetEntry.view?_map (view : View) (inner : ρ → γ) (f : ε → ρ) (entry : LetEntry ε) :
    (entry.map f).view? view inner = entry.view? view (inner ∘ f) := by
  cases entry with
  | declaration d =>
    have seen := d.value.view_map view inner f
    simp [map, view?, Located.map, seen]
  | comment c => rfl

/-- Changed entries are seen as a change of what is seen. -/
theorem LetEntry.viewAll_map (view : View) (inner : ρ → γ) (f : ε → ρ)
    (entries : List (Located (LetEntry ε))) :
    Located.viewAll view (view? view inner) (entries.map (Located.map (map f))) =
      Located.viewAll view (view? view (inner ∘ f)) entries := by
  simp [Located.viewAll, List.filterMap_map, Function.comp_def, Located.map, view?_map]

/-- Changed children are seen as a change of what is seen. -/
theorem ExpressionNode.view_map (view : View) (inner : ρ → γ) (f : ε → ρ)
    (node : ExpressionNode ε) : (node.map f).view view inner = node.view view (inner ∘ f) := by
  rw [map_eq]
  cases node <;> simp [ExpressionNode.view, Commented.map, Clause.map, Clause.view, IfClause.map,
    IfClause.view, Branch.map, Branch.view, RecordPair.map, RecordPair.view, Located.map,
    LetEntry.viewAll_map, Function.comp_def]

/-- What is seen of an expression. -/
def Expression.view (view : View) (expression : Expression) : Expression :=
  expression.fold fun span node => ⟨view.span span, node.view view id⟩

/-- An expression is seen as its node is. -/
@[simp]
theorem Expression.view_mk (view : View) (span : Span) (node : ExpressionNode Expression) :
    Expression.view view ⟨span, node⟩ =
      ⟨view.span span, node.view view (Expression.view view)⟩ := by
  rw [Expression.view, fold_eq, ExpressionNode.view_map]
  rfl

/-- What holds of an expression whenever it holds of the expressions directly inside it holds of
every one. -/
theorem Expression.induction {motive : Expression → Prop}
    (step : ∀ span node, (∀ inner ∈ node.children, motive inner) → motive ⟨span, node⟩)
    (expression : Expression) : motive expression := by
  induction size : sizeOf expression using Nat.strongRecOn generalizing expression with
  | _ bound ih =>
    obtain ⟨span, node⟩ := expression
    refine step span node fun inner member => ?_
    have smaller := ExpressionNode.sizeOf_lt_of_mem member
    refine ih (sizeOf inner) ?_ inner rfl
    rw [← size, mk.sizeOf_spec]
    omega

/-- Arguments are fully seen as they are. -/
theorem map_view_full_patterns (arguments : List (Commented Pattern)) :
    arguments.map (Commented.view .full (Pattern.view .full)) = arguments :=
  Commented.map_view_full fun pattern _ => pattern.view_full

/-- A declaration is fully seen as it is, if its body is. -/
theorem Declaration.view_full {inner : ε → ε} {declaration : Declaration ε}
    (same : ∀ body ∈ declaration.bodies, inner body = body) :
    declaration.view .full inner = declaration := by
  cases declaration with
  | definition d =>
    have sameBody := same d.body (.head _)
    rw [Declaration.view, Definition.view, Pattern.view_full, map_view_full_patterns, sameBody,
      View.comments_full]
  | signature s =>
    rw [Declaration.view, Signature.view, Commented.view_full rfl,
      Commented.view_full s.type.value.view_full]

/-- An entry of a `let` is fully seen as it is, if its body is. -/
theorem LetEntry.view?_full {inner : ε → ε} {entry : LetEntry ε}
    (same : ∀ body ∈ entry.bodies, inner body = body) : entry.view? .full inner = some entry := by
  cases entry with
  | declaration d =>
    have sameDeclaration := Declaration.view_full same
    rw [view?, Located.view, sameDeclaration, View.span_full]
  | comment c => rfl

/-- A node of an expression is fully seen as it is, if its children are. -/
theorem ExpressionNode.view_full {inner : ε → ε} {node : ExpressionNode ε}
    (same : ∀ child ∈ node.children, inner child = child) : node.view .full inner = node := by
  cases node with
  | negation operand => rw [ExpressionNode.view, same _ (.head _)]
  | range low high multiline =>
    rw [ExpressionNode.view, Commented.view_full (same _ (.head _)),
      Commented.view_full (same _ (.tail _ (.head _)))]
  | list terms trailing multiline =>
    rw [ExpressionNode.view, Commented.map_view_full same, View.comments_full]
  | application head arguments layout =>
    obtain ⟨sameHead, sameArguments⟩ := List.forall_mem_cons.mp same
    rw [ExpressionNode.view, sameHead, Commented.map_view_full sameArguments]
  | chain left clauses layout =>
    obtain ⟨sameLeft, sameClauses⟩ := List.forall_mem_cons.mp same
    have seen : clauses.map (Clause.view .full inner) = clauses := by
      refine map_eq_self fun clause member => ?_
      rw [Clause.view, sameClauses clause.expression (List.mem_map_of_mem member)]
      rfl
    rw [ExpressionNode.view, sameLeft, seen]
  | conditional first rest final =>
    obtain ⟨sameFirst, sameOthers⟩ := List.forall_mem_append.mp same
    obtain ⟨sameRest, sameFinal⟩ := List.forall_mem_append.mp sameOthers
    have seenClause : ∀ clause : IfClause ε, (∀ child ∈ clause.children, inner child = child) →
        clause.view .full inner = clause := by
      intro clause sameClause
      rw [IfClause.view, Commented.view_full (sameClause _ (.head _)),
        Commented.view_full (sameClause _ (.tail _ (.head _)))]
    have seenRest : rest.map (Commented.view .full (IfClause.view .full inner)) = rest := by
      refine map_eq_self fun clause member =>
        Commented.view_full (seenClause _ fun child inClause => ?_)
      exact sameRest child (List.mem_flatMap.mpr ⟨clause, member, inClause⟩)
    rw [ExpressionNode.view, seenClause first sameFirst, seenRest,
      Commented.view_full (sameFinal _ (.head _))]
  | caseOf subject multilineSubject branches =>
    obtain ⟨sameSubject, sameBranches⟩ := List.forall_mem_cons.mp same
    have seen : branches.map (Located.view .full (Branch.view .full inner)) = branches := by
      refine map_eq_self fun branch member => ?_
      have sameBody := sameBranches branch.value.body (List.mem_map.mpr ⟨branch, member, rfl⟩)
      rw [Located.view, Branch.view, sameBody, Pattern.view_full]
      rfl
    rw [ExpressionNode.view, Commented.view_full sameSubject, seen]
  | letIn entries bodyComments body =>
    obtain ⟨sameEntries, sameBody⟩ := List.forall_mem_append.mp same
    have seen : Located.viewAll .full (LetEntry.view? .full inner) entries = entries := by
      refine Located.viewAll_full fun entry member => LetEntry.view?_full fun body inEntry => ?_
      exact sameEntries body (List.mem_flatMap.mpr ⟨entry, member, inEntry⟩)
    rw [ExpressionNode.view, seen, sameBody _ (.head _), View.comments_full]
  | lambda arguments comments body multiline =>
    rw [ExpressionNode.view, map_view_full_patterns, same _ (.head _), View.comments_full]
  | tuple elements multiline => rw [ExpressionNode.view, Commented.map_view_full same]
  | parens expression => rw [ExpressionNode.view, Commented.view_full (same _ (.head _))]
  | record base fields trailing multiline =>
    have seen : fields.map (Commented.view .full (RecordPair.view .full inner)) = fields := by
      refine map_eq_self fun field member => Commented.view_full ?_
      have sameValue := same field.value.value.value (List.mem_map.mpr ⟨field, member, rfl⟩)
      rw [RecordPair.view, Commented.view_full rfl, Commented.view_full sameValue]
    rw [ExpressionNode.view, seen, map_view_full_base, View.comments_full]
  | access target field => rw [ExpressionNode.view, same _ (.head _)]
  | _ => rfl

/-- An expression is fully seen as it is. -/
theorem Expression.view_full (expression : Expression) : expression.view .full = expression := by
  induction expression using Expression.induction with
  | step span node same => rw [view_mk, ExpressionNode.view_full same, View.span_full]

/-! ## Modules -/

/-- What is seen of a name in a listing. -/
def ListedName.view (view : View) (listed : ListedName) : ListedName :=
  ⟨listed.name, listed.constructors.map view.comments⟩

/-- What is seen of a listing. -/
def Listing.view (view : View) : Listing → Listing
  | everything comments => everything (view.comments comments)
  | explicit names trailing =>
    explicit (names.map (Commented.view view (ListedName.view view))) (view.comments trailing)

/-- What is seen of a header. -/
def ModuleHeader.view (view : View) (header : ModuleHeader) : ModuleHeader :=
  ⟨header.name.view view id, header.exposes.view view (Listing.view view)⟩

/-- What is seen of an import. -/
def Import.view (view : View) (declaration : Import) : Import :=
  ⟨declaration.name.view view id, declaration.qualifier.map (Commented.view view id),
    declaration.exposes.map (Commented.view view (Listing.view view))⟩

/-- What is seen of a fixity declaration. -/
def FixityDeclaration.view (view : View) (fixity : FixityDeclaration) : FixityDeclaration :=
  ⟨fixity.associativity, fixity.precedence.view view id, fixity.operator.view view id⟩

/-- What is seen of the declaration of another name for a type. -/
def TypeAlias.view (view : View) (declaration : TypeAlias) : TypeAlias :=
  ⟨declaration.name.view view id, declaration.parameters.map (Commented.view view id),
    declaration.type.view view (TypeExpression.view view)⟩

/-- What is seen of a constructor. -/
def ConstructorVariant.view (view : View) (variant : ConstructorVariant) : ConstructorVariant :=
  ⟨variant.name, variant.arguments.map (Commented.view view (TypeExpression.view view))⟩

/-- What is seen of the declaration of a type. -/
def Datatype.view (view : View) (datatype : Datatype) : Datatype :=
  ⟨datatype.name.view view id, datatype.parameters.map (Commented.view view id),
    datatype.variants.map (Commented.view view (Located.view view (ConstructorVariant.view view)))⟩

/-- What is seen of an entry at the top level; where no comments are seen, nothing is seen of
one. -/
def TopLevel.view? (view : View) : TopLevel → Option TopLevel
  | declaration d => some (declaration (d.view view (Expression.view view)))
  | fixity f => some (fixity (f.view view))
  | typeAlias t => some (typeAlias (t.view view))
  | datatype d => some (datatype (d.view view))
  | comment c => if view.showsComments then some (comment c) else none

/-- What is seen of a whole source file. -/
def Module.view (view : View) (module : Module) : Module :=
  ⟨view.comments module.initialComments,
    module.header.map (Located.view view (ModuleHeader.view view)),
    module.imports.map (Commented.view view (Located.view view (Import.view view))),
    Located.viewAll view (TopLevel.view? view) module.body⟩

/-- A listing is fully seen as it is. -/
theorem Listing.view_full (listing : Listing) : listing.view .full = listing := by
  cases listing with
  | everything comments => rfl
  | explicit names trailing =>
    have seen : names.map (Commented.view .full (ListedName.view .full)) = names := by
      refine Commented.map_view_full fun listed _ => ?_
      obtain ⟨name, constructors⟩ := listed
      cases constructors <;> rfl
    rw [Listing.view, seen, View.comments_full]

/-- An import is fully seen as it is. -/
theorem Import.view_full (declaration : Import) : declaration.view .full = declaration := by
  obtain ⟨name, qualifier, exposes⟩ := declaration
  cases exposes with
  | none => rw [Import.view, map_view_full_base]; rfl
  | some listing =>
    rw [Import.view, map_view_full_base, Option.map_some,
      Commented.view_full listing.value.view_full]
    rfl

/-- An entry at the top level is fully seen as it is. -/
theorem TopLevel.view?_full (entry : TopLevel) : entry.view? .full = some entry := by
  cases entry with
  | declaration d => rw [view?, Declaration.view_full fun body _ => body.view_full]
  | fixity f => rfl
  | typeAlias t =>
    have parameters : t.parameters.map (Commented.view .full id) = t.parameters :=
      Commented.map_view_full fun _ _ => rfl
    rw [view?, TypeAlias.view, parameters, Commented.view_full t.type.value.view_full]
    rfl
  | datatype d =>
    have parameters : d.parameters.map (Commented.view .full id) = d.parameters :=
      Commented.map_view_full fun _ _ => rfl
    have variants : d.variants.map (Commented.view .full
          (Located.view .full (ConstructorVariant.view .full))) = d.variants := by
      refine Commented.map_view_full fun variant _ => ?_
      have arguments :
          variant.value.arguments.map (Commented.view .full (TypeExpression.view .full)) =
            variant.value.arguments := Commented.map_view_full fun type _ => type.view_full
      rw [Located.view, ConstructorVariant.view, arguments]
      rfl
    rw [view?, Datatype.view, parameters, variants]
    rfl
  | comment c => rfl

/-- A module is fully seen as it is. -/
theorem Module.view_full (module : Module) : module.view .full = module := by
  obtain ⟨initial, header, imports, body⟩ := module
  have seenHeader : header.map (Located.view .full (ModuleHeader.view .full)) = header := by
    cases header with
    | none => rfl
    | some header =>
      rw [Option.map_some, Located.view, ModuleHeader.view,
        Commented.view_full header.value.exposes.value.view_full]
      rfl
  have seenImports :
      imports.map (Commented.view .full (Located.view .full (Import.view .full))) = imports := by
    refine Commented.map_view_full fun declaration _ => ?_
    rw [Located.view, Import.view_full]
    rfl
  have seenBody : Located.viewAll .full (TopLevel.view? .full) body = body :=
    Located.viewAll_full fun entry _ => TopLevel.view?_full entry.value
  rw [Module.view, seenHeader, seenImports, seenBody, View.comments_full]

end Marginalia
