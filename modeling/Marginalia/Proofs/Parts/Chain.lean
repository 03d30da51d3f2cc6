import Marginalia.Proofs.Grouping
import Marginalia.Proofs.Parts.Source
import Marginalia.Proofs.Resolution

/-!
# Spans of grouped chains

A tree that groups a chain has no places of its own: its span is put together from the spans of its
operands. Since the operands and operators of a chain stand in a row over the whole of it, and
grouping does not change their order, the span of the tree is that of the chain, and every operation
stands around its operator, with an operand on either side.

Main statement: `operator_trees_carry_spans`.
-/

namespace Marginalia

/-! ## Expressions in a source -/

namespace Placed.Everywhere

variable {law : Placed → Prop} {placed inner : Placed}

/-- A law that holds everywhere in a part holds of the part. -/
theorem here (everywhere : Everywhere law placed) : law placed := everywhere placed (.refl placed)

/-- A law that holds everywhere in a part holds everywhere in what the part is made of. -/
theorem part (everywhere : Everywhere law placed) (member : inner ∈ placed.inside) :
    Everywhere law inner :=
  fun one within => everywhere one (.inside within member)

end Placed.Everywhere

open Placed (Everywhere)

variable {law : Placed → Prop} {reference : Nat} {place : Place} {inner : Expression}

/-- A law that holds everywhere in an expression holds everywhere in what stands in a slot of it. -/
theorem ExpressionNode.Holds.everywhere {outer child : Expression} {slot : Slot}
    (holds : outer.node.Holds slot child)
    (everywhere : Everywhere law ⟨reference, .expression outer⟩) :
    ∃ column, Everywhere law ⟨column, .expression child⟩ := by
  obtain ⟨span, node⟩ := outer
  change node.Holds slot child at holds
  have inChildren : child ∈ node.children :=
    ExpressionNode.mem_children_of_slotted (ExpressionNode.holds_iff.mp holds)
  cases holds with
  | subject subject multiline branches => exact ⟨reference, everywhere.part (.head _)⟩
  | @branch branches i branch found subject multiline =>
    have inBranch : (⟨caseReference branches, .expression branch.value.body⟩ : Placed) ∈
          [⟨caseReference branches, .pattern branch.value.pattern⟩,
          ⟨caseReference branches, .expression branch.value.body⟩] :=
      .tail _ (.head _)
    refine ⟨caseReference branches, everywhere.part (List.mem_cons_of_mem _ ?_)⟩
    exact List.mem_flatMap.mpr ⟨branch, List.mem_of_getElem? found, inBranch⟩
  | @definition entries i _ _ definition found comments body =>
    have defines : Everywhere law ⟨letReference entries, .definition definition⟩ := by
      refine everywhere.part (List.mem_append_left _ ?_)
      exact List.mem_flatMap.mpr ⟨_, List.mem_of_getElem? found, .head _⟩
    exact ⟨_, defines.part (List.mem_append_right _ (List.mem_singleton_self _))⟩
  | letBody entries comments body =>
    exact ⟨reference, everywhere.part (List.mem_append_right _ (List.mem_singleton_self _))⟩
  | lambdaBody arguments comments body multiline =>
    exact ⟨reference, everywhere.part (List.mem_append_right _ (List.mem_singleton_self _))⟩
  | _ => exact ⟨reference, everywhere.part (List.mem_map.mpr ⟨_, inChildren, rfl⟩)⟩

/-- A law that holds everywhere in an expression holds everywhere in what occurs in it. -/
theorem Expression.Occurs.everywhere {outer : Expression} (occurs : outer.Occurs place inner)
    (everywhere : Everywhere law ⟨reference, .expression outer⟩) :
    ∃ column, Everywhere law ⟨column, .expression inner⟩ := by
  induction occurs generalizing reference with
  | here expression => exact ⟨reference, everywhere⟩
  | inside holds _ ih =>
    obtain ⟨column, child⟩ := holds.everywhere everywhere
    exact ih child

/-- The expression stands somewhere in what a source is read as, be it an expression or a module. -/
inductive Expression.StandsIn (source : Text) (inner : Expression) : Prop where
  | expression {found : Commented Expression} {place : Place}
      (read : Expression.parse source = .ok found) (occurs : found.value.Occurs place inner) :
      StandsIn source inner
  | module {module : Module} {place : Place} (read : Module.parse source = .ok module)
      (occurs : module.Occurs place inner) : StandsIn source inner

/-- What stands in a source obeys the laws. -/
theorem Expression.StandsIn.sound {source : Text} (stands : inner.StandsIn source) :
    ∃ tokens column, Placed.Sound source tokens ⟨column, .expression inner⟩ := by
  cases stands with
  | expression read occurs =>
    obtain ⟨_, _, rfl, scan, _⟩ := run_eq_ok read
    obtain ⟨column, everywhere⟩ := occurs.everywhere ((Root.expression read).sound scan)
    exact ⟨_, column, everywhere.here⟩
  | module read occurs =>
    obtain ⟨_, _, rfl, scan, _⟩ := run_eq_ok read
    obtain ⟨found, occurs⟩ := occurs
    have entry := (Root.entry read (List.mem_of_getElem? found)).sound scan
    have definition := entry.part (List.mem_singleton_self _)
    have body := definition.part (List.mem_append_right _ (List.mem_singleton_self _))
    obtain ⟨column, everywhere⟩ := occurs.everywhere body
    exact ⟨_, column, everywhere.here⟩

/-! ## Trees over a row -/

/-- Behind an operator in a row stand the operators and operands that were behind it, and it stands
behind a place that those before it end at. -/
theorem StrungFrom.split {first last : Position} {before after : List (Clause Reference Expression)}
    {clause : Clause Reference Expression}
    (strung : StrungFrom first (before ++ clause :: after) last) :
    ∃ middle, StrungFrom first before middle ∧ clause.Strung middle ∧
      StrungFrom clause.expression.span.stop after last := by
  induction before generalizing first with
  | nil =>
    cases strung with
    | cons here further => exact ⟨first, .nil first, here, further⟩
  | cons one before ih =>
    cases strung with
    | cons here further =>
      obtain ⟨middle, inFront, stands, behind⟩ := ih further
      exact ⟨middle, .cons here inFront, stands, behind⟩

namespace OperatorTree

/-- A tree and all the trees in it. -/
def subtrees : OperatorTree → List OperatorTree
  | operand expression => [operand expression]
  | operation operator left right =>
    operation operator left right :: (left.subtrees ++ right.subtrees)

/-- The operands of a tree from left to right. -/
def operands : OperatorTree → List Expression
  | operand expression => [expression]
  | operation _ left right => left.operands ++ right.operands

/-- The tree takes up some of the source, and where it is an operation, its operator does so between
the two operands, which it does not overlap. -/
def Surrounds (tree : OperatorTree) : Prop :=
  tree.span.start.offset < tree.span.stop.offset ∧
    match tree with
    | operand _ => True
    | operation operator left right =>
      left.span.stop.offset ≤ operator.span.start.offset ∧
        operator.span.start.offset < operator.span.stop.offset ∧
        operator.span.stop.offset ≤ right.span.start.offset

/-- A tree is one of its subtrees. -/
theorem self_mem_subtrees (tree : OperatorTree) : tree ∈ tree.subtrees := by
  cases tree <;> exact .head _

/-- The span of a tree runs from the start of its first operand to the end of its last one. -/
theorem span_eq (tree : OperatorTree) : ∃ first last, tree.operands.head? = some first ∧
    tree.operands.getLast? = some last ∧ tree.span = ⟨first.span.start, last.span.stop⟩ := by
  induction tree with
  | operand expression => exact ⟨expression, expression, rfl, rfl, rfl⟩
  | operation operator left right leftSpan rightSpan =>
    obtain ⟨first, _, isFirst, -, spanLeft⟩ := leftSpan
    obtain ⟨_, last, -, isLast, spanRight⟩ := rightSpan
    refine ⟨first, last, ?_, ?_, ?_⟩
    · rw [operands, List.head?_append, isFirst, Option.some_or]
    · rw [operands, List.getLast?_append, isLast, Option.some_or]
    · rw [span, spanLeft, spanRight]

/-- A tree whose operands and operators stand in a row has the span of the row, and every operation
in it stands around its operator. -/
theorem spans_of_strung {tree : OperatorTree}
    {clauses : List (Clause Reference Expression)} {stop : Position}
    (same : clauses.map (fun clause => (clause.operator, clause.expression)) = tree.steps)
    (wide : tree.first.span.start.offset < tree.first.span.stop.offset)
    (strung : StrungFrom tree.first.span.stop clauses stop) :
    tree.span = ⟨tree.first.span.start, stop⟩ ∧ ∀ subtree ∈ tree.subtrees, subtree.Surrounds := by
  induction tree generalizing clauses stop with
  | operand expression =>
    obtain rfl := List.map_eq_nil_iff.mp same
    cases strung with
    | nil => exact ⟨rfl, List.forall_mem_singleton.mpr ⟨wide, trivial⟩⟩
  | operation operator left right leftSpans rightSpans =>
    -- the clauses are those on the left, the one of the operator, and those on the right
    obtain ⟨before, others, rfl, sameLeft, further⟩ := List.map_eq_append_iff.mp same
    obtain ⟨clause, after, rfl, head, sameRight⟩ := List.map_eq_cons_iff.mp further
    obtain ⟨rfl, isFirst⟩ := Prod.mk.inj head
    obtain ⟨middle, inFront, here, behind⟩ := strung.split
    have wideRight := here.operand
    have apart := here.before
    rw [isFirst] at wideRight behind apart
    obtain ⟨spanLeft, eachLeft⟩ := leftSpans sameLeft wide inFront
    obtain ⟨spanRight, eachRight⟩ := rightSpans sameRight wideRight behind
    have between : left.span.stop.offset ≤ clause.operator.span.start.offset ∧
        clause.operator.span.start.offset < clause.operator.span.stop.offset ∧
        clause.operator.span.stop.offset ≤ right.span.start.offset := by
      rw [spanLeft, spanRight]
      exact ⟨here.behind, here.wide, apart⟩
    have whole : left.span.start.offset < right.span.stop.offset := by
      have ⟨wideLeft, _⟩ := eachLeft left left.self_mem_subtrees
      have ⟨wideRight, _⟩ := eachRight right right.self_mem_subtrees
      omega
    refine ⟨?_, List.forall_mem_cons.mpr ⟨⟨whole, between⟩,
      List.forall_mem_append.mpr ⟨eachLeft, eachRight⟩⟩⟩
    rw [span, spanLeft, spanRight]
    rfl

end OperatorTree

/-! ## Main statement -/

/-- The tree that groups a chain has the span of the chain, whatever the fixities are; their
precedences are any whole numbers of the format of 64 bits. The span of every tree in it runs from
the start of its first operand to the end of its last one, and every operation stands around its
operator: the operand on the left ends before or where the operator begins, and the one on the right
begins where it ends or behind. -/
theorem operator_trees_carry_spans {source : Text} {chain left : Expression}
    {clauses : List (Clause Reference Expression)} {layout : Layout} {registry : Registry}
    {tree : OperatorTree} (stands : chain.StandsIn source)
    (isChain : chain.node = .chain left clauses layout)
    (grouped : associate registry left clauses = .ok tree) :
    tree.span = chain.span ∧ ∀ subtree ∈ tree.subtrees, subtree.Surrounds ∧
      ∃ first last, subtree.operands.head? = some first ∧ subtree.operands.getLast? = some last ∧
      subtree.span = ⟨first.span.start, last.span.stop⟩ := by
  obtain ⟨tokens, column, sound⟩ := stands.sound
  have strung : StrungOver chain.span left clauses := by
    have row : chain.Strung := sound.strung
    rwa [Expression.Strung, isChain] at row
  have order : tree.inorder = chainItems left clauses := associateFrom_inorder grouped
  obtain ⟨rfl, same⟩ := steps_of_inorder order
  obtain ⟨whole, each⟩ := OperatorTree.spans_of_strung same strung.wide strung.clauses
  refine ⟨?_, fun subtree member => ⟨each subtree member, subtree.span_eq⟩⟩
  rw [whole, strung.starts]

/-- Two products in a sum, and a function behind a pipe on the next line, are grouped with their
spans. -/
theorem piped_sum_carries_spans :
    ∃ (source : Text) (module : Module) (chain left : Expression)
      (clauses : List (Clause Reference Expression)) (layout : Layout) (tree : OperatorTree),
      source = "f x =\n (a*b + g c * d\n   |> \\y -> y)" ∧ Module.parse source = .ok module ∧
      chain.StandsIn source ∧ chain.node = .chain left clauses layout ∧ clauses.length = 4 ∧
      associate .builtin left clauses = .ok tree ∧ tree.span = chain.span ∧
      ∀ subtree ∈ tree.subtrees, subtree.Surrounds := by
  let source : Text := "f x =\n (a*b + g c * d\n   |> \\y -> y)"
  have evaluates : (Module.parse source).toOption.map (fun module => module.chains.map fun chain =>
      (chain.clauses.length, (chain.grouping .builtin).isOk)) =
        some [(4, true)] := by decide +kernel
  obtain ⟨module, read, seen⟩ := ok_of_toOption_map evaluates
  obtain ⟨chain, chains, four⟩ := List.map_eq_singleton_iff.mp seen
  obtain ⟨four, isOk⟩ := Prod.mk.inj four
  have member : chain ∈ module.chains := chains ▸ .head _
  obtain ⟨occurs, layout, isChain⟩ := Module.mem_chains.mp member
  obtain ⟨tree, grouped⟩ := ok_of_isOk isOk
  have stands : chain.expression.StandsIn source := .module read occurs
  obtain ⟨span, each⟩ := operator_trees_carry_spans stands isChain grouped
  exact ⟨source, module, _, _, _, layout, tree, rfl, read, stands, isChain, four, grouped, span,
    fun subtree member => (each subtree member).1⟩

end Marginalia
