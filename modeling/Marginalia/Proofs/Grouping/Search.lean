import Marginalia.Fixity.Tree
import Marginalia.Proofs.Grouping.Precedence

/-!
# Groupings of operator chains

What it means that a tree groups a chain is said without reference to how groupings are found. They
can be found by a search that compares precedences only: an operator that comes in completes the
waiting operations that bind tighter, and of those that bind as tightly the ones that group to the
left. That the tree found is a grouping follows from an invariant of the stack of waiting
operations. That there is no other one, and that one is found wherever there is one, both follow
from running the search along a given grouping: it finds that grouping.
-/

namespace Marginalia

/-! ## Groupings -/

/-- An operand or an operator of a flat chain. -/
inductive ChainItem where
  | operand (expression : Expression)
  | operator (operator : Located Reference)

/-- The operands and operators of a chain, in the order in which they are written. -/
def chainItems (left : Expression) (clauses : List (Clause Reference Expression)) :
    List ChainItem :=
  .operand left :: clauses.flatMap fun clause =>
    [.operator clause.operator, .operand clause.expression]

/-- The fixity of an operator, or that of undeclared operators. -/
def Registry.fixityOf (registry : Registry) (operator : Located Reference) : Fixity :=
  registry.fixity operator.value.symbol

/-- An operator may have another one directly below it on a side: one that binds tighter, or one
that binds as tightly where both group to that side. -/
def Fixity.Admits (outer inner : Fixity) (side : Associativity) : Prop :=
  outer.precedence < inner.precedence ∨
    outer.precedence = inner.precedence ∧ outer.associativity = side ∧ inner.associativity = side

namespace OperatorTree

/-- The operands and operators of a tree from left to right. -/
def inorder : OperatorTree → List ChainItem
  | operand expression => [.operand expression]
  | operation operator left right => left.inorder ++ .operator operator :: right.inorder

/-- The tree may stand on a side of an operator. -/
def Under (registry : Registry) (outer : Fixity) (side : Associativity) : OperatorTree → Prop
  | operand _ => True
  | operation operator _ _ => outer.Admits (registry.fixityOf operator) side

/-- Every operation of the tree admits the operations directly below it. -/
def Grouped (registry : Registry) : OperatorTree → Prop
  | operand _ => True
  | operation operator left right =>
    left.Under registry (registry.fixityOf operator) .left ∧
      right.Under registry (registry.fixityOf operator) .right ∧ left.Grouped registry ∧
      right.Grouped registry

end OperatorTree

/-- The tree groups the chain by the fixities of its operators. -/
structure IsGrouping (registry : Registry) (left : Expression)
    (clauses : List (Clause Reference Expression)) (tree : OperatorTree) : Prop where
  /-- The tree has the operands and operators of the chain, in order. -/
  inorder : tree.inorder = chainItems left clauses
  /-- Operators stand below each other as their fixities say. -/
  grouped : tree.Grouped registry

/-! ## Searching for a grouping -/

/-- Completes the waiting operations that an incoming operator comes after, given their last right
operand. -/
def settle (operator : Located Reference) (fixity : Fixity) :
    List PendingOperation → OperatorTree →
      Except FixityError (List PendingOperation × OperatorTree)
  | [], right => .ok ([], right)
  | pending :: outer, right =>
    if fixity.precedence < pending.fixity.precedence then
      settle operator fixity outer (pending.complete right)
    else if pending.fixity.precedence < fixity.precedence then
      .ok (pending :: outer, right)
    else
      match pending.conflict? operator fixity with
      | some error => .error error
      | none =>
        if fixity.associativity = .right then .ok (pending :: outer, right)
        else .ok (outer, pending.complete right)

/-- Searches for a grouping of the clauses that follow, with operations waiting for the operand read
last. -/
def findGroupingFrom (registry : Registry) :
    List PendingOperation → OperatorTree → List (Clause Reference Expression) →
      Except FixityError OperatorTree
  | pending, last, [] => .ok (completeAll pending last)
  | pending, last, clause :: rest => do
    let fixity := registry.fixityOf clause.operator
    let (outer, left) ← settle clause.operator fixity pending last
    findGroupingFrom registry (⟨left, clause.operator, fixity⟩ :: outer)
      (.operand clause.expression) rest

/-- Searches for a grouping of a chain. -/
def findGrouping (registry : Registry) (left : Expression)
    (clauses : List (Clause Reference Expression)) : Except FixityError OperatorTree :=
  findGroupingFrom registry [] (.operand left) clauses

/-! ## What is found is a grouping -/

/-- What was read before the operand that operations wait for. -/
def itemsBefore : List PendingOperation → List ChainItem
  | [] => []
  | pending :: outer => itemsBefore outer ++ (pending.left.inorder ++ [.operator pending.operator])

/-- The operation waiting last, if any, may have a fixity below it on the right. -/
def TopAdmits (pending : List PendingOperation) (fixity : Fixity) : Prop :=
  ∀ top ∈ pending.head?, top.fixity.Admits fixity .right

/-- The operation waiting last, if any, may have the tree as its right operand. -/
def TopTakes (registry : Registry) (pending : List PendingOperation) (tree : OperatorTree) : Prop :=
  ∀ top ∈ pending.head?, tree.Under registry top.fixity .right

/-- Waiting operations are grouped as far as they are complete, and each may stand on the right of
the one before. -/
def Waiting (registry : Registry) : List PendingOperation → Prop
  | [] => True
  | pending :: outer =>
    pending.fixity = registry.fixityOf pending.operator ∧ pending.left.Grouped registry ∧
      pending.left.Under registry pending.fixity .left ∧ TopAdmits outer pending.fixity ∧
      Waiting registry outer

variable {registry : Registry}

/-- Completing an operation keeps the order of what was read. -/
theorem inorder_complete (pending : PendingOperation) (tree : OperatorTree) :
    (pending.complete tree).inorder = pending.left.inorder ++ .operator pending.operator ::
      tree.inorder := rfl

/-- A waiting operation with a right operand that it may take is grouped, and the one before may
take it. -/
theorem Waiting.complete {pending : PendingOperation} {outer : List PendingOperation}
    (waiting : Waiting registry (pending :: outer)) {tree : OperatorTree}
    (grouped : tree.Grouped registry) (takes : TopTakes registry (pending :: outer) tree) :
    (pending.complete tree).Grouped registry ∧ TopTakes registry outer (pending.complete tree) := by
  obtain ⟨same, leftGrouped, leftUnder, admits, -⟩ := waiting
  have under : tree.Under registry pending.fixity .right := takes pending rfl
  constructor
  · rw [same] at leftUnder under
    exact ⟨leftUnder, under, leftGrouped, grouped⟩
  · intro top isTop
    have admitted := admits top isTop
    rw [same] at admitted
    exact admitted

/-- Completing all waiting operations keeps the order of what was read. -/
theorem inorder_completeAll (pending : List PendingOperation) (tree : OperatorTree) :
    (completeAll pending tree).inorder = itemsBefore pending ++ tree.inorder := by
  induction pending generalizing tree with
  | nil => rfl
  | cons first outer ih =>
    calc (completeAll (first :: outer) tree).inorder
      _ = itemsBefore outer ++ (first.complete tree).inorder := ih (first.complete tree)
      _ = itemsBefore (first :: outer) ++ tree.inorder := by simp [inorder_complete, itemsBefore]

/-- Completing all waiting operations gives a grouped tree. -/
theorem completeAll_grouped {pending : List PendingOperation} (waiting : Waiting registry pending)
    {tree : OperatorTree} (grouped : tree.Grouped registry)
    (takes : TopTakes registry pending tree) : (completeAll pending tree).Grouped registry := by
  induction pending generalizing tree with
  | nil => exact grouped
  | cons first outer ih =>
    obtain ⟨completed, takesCompleted⟩ := waiting.complete grouped takes
    exact ih waiting.2.2.2.2 completed takesCompleted

/-- Operators of one precedence without conflict group to the same side. -/
theorem associativity_of_conflict?_eq_none {pending : PendingOperation}
    {operator : Located Reference} {fixity : Fixity}
    (noConflict : pending.conflict? operator fixity = none) :
    pending.fixity.associativity = fixity.associativity ∧ fixity.associativity ≠ .none := by
  rw [PendingOperation.conflict?] at noConflict
  split at noConflict
  · cases noConflict
  · rename_i associative
    split at noConflict
    · cases noConflict
    · rename_i same
      exact ⟨Decidable.not_not.mp same, fun isNone => associative (.inr isNone)⟩

/-- The operation waiting last is the one to admit a fixity. -/
theorem TopAdmits.cons {first : PendingOperation} {fixity : Fixity}
    (admits : first.fixity.Admits fixity .right) (outer : List PendingOperation) :
    TopAdmits (first :: outer) fixity := by
  intro top isTop
  obtain rfl := Option.some.inj isTop
  exact admits

/-- What admits an operator that groups to the left admits any one of the same precedence in its
place. -/
theorem Fixity.Admits.of_level {outer inner fixity : Fixity} (admits : outer.Admits inner .right)
    (level : inner.precedence = fixity.precedence) (isLeft : inner.associativity = .left) :
    outer.Admits fixity .right := by
  rcases admits with tighter | ⟨-, -, isRight⟩
  · exact .inl (level ▸ tighter)
  · rw [isLeft] at isRight
    cases isRight

/-- What is left after an operator came in: it may stand on the right of the operation waiting last,
and the tree that was completed may stand on its left. -/
structure Settled (registry : Registry) (fixity : Fixity) (pending : List PendingOperation)
    (tree : OperatorTree) : Prop where
  waiting : Waiting registry pending
  grouped : tree.Grouped registry
  under : tree.Under registry fixity .left
  admits : TopAdmits pending fixity

/-- An operator that comes in keeps what was read and leaves everything settled. -/
theorem settle_settled {operator : Located Reference} {fixity : Fixity}
    {pending remaining : List PendingOperation} {tree completed : OperatorTree}
    (waiting : Waiting registry pending) (grouped : tree.Grouped registry)
    (takes : TopTakes registry pending tree) (under : tree.Under registry fixity .left)
    (settled : settle operator fixity pending tree = .ok (remaining, completed)) :
    Settled registry fixity remaining completed ∧
    itemsBefore remaining ++ completed.inorder = itemsBefore pending ++ tree.inorder := by
  induction pending generalizing tree with
  | nil =>
    obtain ⟨rfl, rfl⟩ := Prod.mk.inj (Except.ok.inj settled)
    exact ⟨⟨waiting, grouped, under, by intro top isTop; cases isTop⟩, rfl⟩
  | cons first outer ih =>
    obtain ⟨completedGrouped, takesCompleted⟩ := waiting.complete grouped takes
    have ⟨same, _, _, admits, outerWaiting⟩ := waiting
    have order : itemsBefore outer ++ (first.complete tree).inorder =
          itemsBefore (first :: outer) ++ tree.inorder := by
      simp [inorder_complete, itemsBefore]
    rw [settle] at settled
    split at settled
    · rename_i tighter
      have stays : (first.complete tree).Under registry fixity .left := by
        rw [same] at tighter
        exact .inl tighter
      obtain ⟨result, kept⟩ := ih outerWaiting completedGrouped takesCompleted stays settled
      exact ⟨result, kept.trans order⟩
    · split at settled
      · rename_i looser
        obtain ⟨rfl, rfl⟩ := Prod.mk.inj (Except.ok.inj settled)
        exact ⟨⟨waiting, grouped, under, .cons (.inl looser) outer⟩, rfl⟩
      · rename_i notTighter notLooser
        have level : first.fixity.precedence = fixity.precedence := by order
        split at settled
        · cases settled
        · rename_i noConflict
          obtain ⟨sameSide, associative⟩ := associativity_of_conflict?_eq_none noConflict
          split at settled
          · rename_i isRight
            obtain ⟨rfl, rfl⟩ := Prod.mk.inj (Except.ok.inj settled)
            have admitsRight : first.fixity.Admits fixity .right :=
              .inr ⟨level, sameSide.trans isRight, isRight⟩
            exact ⟨⟨waiting, grouped, under, .cons admitsRight outer⟩, rfl⟩
          · rename_i notRight
            obtain ⟨rfl, rfl⟩ := Prod.mk.inj (Except.ok.inj settled)
            have isLeft : fixity.associativity = .left := by
              cases side : fixity.associativity with
              | left => rfl
              | right => exact absurd side notRight
              | none => exact absurd side associative
            refine ⟨⟨outerWaiting, completedGrouped, ?_, ?_⟩, order⟩
            · show fixity.Admits (registry.fixityOf first.operator) .left
              rw [← same]
              exact .inr ⟨level.symm, isLeft, sameSide.trans isLeft⟩
            · intro top isTop
              exact (admits top isTop).of_level level (sameSide.trans isLeft)

/-- What is found from waiting operations on is grouped and has everything that was read or is still
to be read. -/
theorem findGroupingFrom_grouped {pending : List PendingOperation} {last : Expression}
    {clauses : List (Clause Reference Expression)} {tree : OperatorTree}
    (waiting : Waiting registry pending)
    (found : findGroupingFrom registry pending (.operand last) clauses = .ok tree) :
    tree.Grouped registry ∧ tree.inorder = itemsBefore pending ++ chainItems last clauses := by
  induction clauses generalizing pending last with
  | nil =>
    obtain rfl := Except.ok.inj found
    have grouped : (completeAll pending (.operand last)).Grouped registry :=
      completeAll_grouped waiting trivial fun _ _ => trivial
    exact ⟨grouped, inorder_completeAll pending _⟩
  | cons clause rest ih =>
    rw [findGroupingFrom] at found
    cases settled : settle clause.operator (registry.fixityOf clause.operator) pending
      (.operand last) with
    | error error =>
      rw [settled] at found
      cases found
    | ok result =>
      obtain ⟨remaining, left⟩ := result
      rw [settled] at found
      have alone : (OperatorTree.operand last).Grouped registry := trivial
      obtain ⟨stays, order⟩ := settle_settled waiting alone (fun _ _ => trivial) trivial settled
      have waits : Waiting registry
            (⟨left, clause.operator, registry.fixityOf clause.operator⟩ :: remaining) :=
        ⟨rfl, stays.grouped, stays.under, stays.admits, stays.waiting⟩
      obtain ⟨grouped, whole⟩ := ih waits found
      refine ⟨grouped, ?_⟩
      rw [whole, itemsBefore, ← List.append_assoc, order]
      simp [chainItems, OperatorTree.inorder]

/-! ## A grouping is what is found -/

namespace OperatorTree

/-- The operand on the left end. -/
def first : OperatorTree → Expression
  | operand expression => expression
  | operation _ left _ => left.first

/-- The operand on the right end. -/
def last : OperatorTree → OperatorTree
  | operand expression => operand expression
  | operation _ _ right => right.last

/-- The operators from left to right, each with the operand after it. -/
def steps : OperatorTree → List (Located Reference × Expression)
  | operand _ => []
  | operation operator left right => left.steps ++ (operator, right.first) :: right.steps

/-- The operations along the right edge, innermost first, as if they still waited for their right
operands. -/
def edge (registry : Registry) : OperatorTree → List PendingOperation
  | operand _ => []
  | operation operator left right =>
    right.edge registry ++ [⟨left, operator, registry.fixityOf operator⟩]

/-- From left to right there are the operand on the left end and the steps. -/
theorem inorder_eq (tree : OperatorTree) :
    tree.inorder = .operand tree.first :: tree.steps.flatMap fun step =>
      [.operator step.1, .operand step.2] := by
  induction tree with
  | operand expression => rfl
  | operation operator left right leftOrder rightOrder =>
    rw [inorder, leftOrder, rightOrder]
    simp [first, steps]

/-- Completing the operations along the right edge gives the tree. -/
theorem completeAll_edge (registry : Registry) (tree : OperatorTree) :
    completeAll (tree.edge registry) tree.last = tree := by
  induction tree with
  | operand expression => rfl
  | operation operator left right _ ih =>
    unfold completeAll at ih ⊢
    rw [edge, last, List.foldl_append, ih]
    rfl

end OperatorTree

/-- An operator waits for nothing else when it comes in after the operations: all of them stay. -/
def Stays (pending : List PendingOperation) (operator : Located Reference)
    (fixity : Fixity) : Prop :=
  ∀ tree, settle operator fixity pending tree = .ok (pending, tree)

/-- An operator that the operation waiting last admits on its right leaves that operation
waiting. -/
theorem stays_of_topAdmits {pending : List PendingOperation} {fixity : Fixity}
    (admits : TopAdmits pending fixity) (operator : Located Reference) :
    Stays pending operator fixity := by
  intro tree
  cases pending with
  | nil => rfl
  | cons top outer =>
    rw [settle]
    rcases admits top rfl with tighter | ⟨level, topRight, isRight⟩
    · rw [if_neg (by order), if_pos tighter]
    · have noConflict : top.conflict? operator fixity = none := by
        simp [PendingOperation.conflict?, topRight, isRight]
      rw [if_neg (by order), if_neg (by order), noConflict]
      simp [isRight]

/-- An operator that binds less tightly than a whole tree completes the operations along its right
edge. -/
theorem settle_edge {operator : Located Reference} {fixity : Fixity} {tree : OperatorTree}
    (grouped : tree.Grouped registry)
    (tighter : ∀ root left right, tree = .operation root left right →
      fixity.precedence < (registry.fixityOf root).precedence) (pending : List PendingOperation) :
    settle operator fixity (tree.edge registry ++ pending) tree.last =
      settle operator fixity pending tree := by
  induction tree generalizing pending with
  | operand expression => rfl
  | operation root left right _ ih =>
    have loose := tighter root left right rfl
    obtain ⟨-, under, -, rightGrouped⟩ := grouped
    have rightTighter : ∀ inner first second, right = .operation inner first second →
        fixity.precedence < (registry.fixityOf inner).precedence := by
      rintro inner first second rfl
      rcases under with deeper | ⟨level, -⟩ <;> order
    rw [OperatorTree.edge, OperatorTree.last, List.append_assoc, ih rightGrouped rightTighter]
    rw [List.singleton_append, settle, if_pos loose]
    rfl

/-- An operator that may have a tree on its left completes exactly the operations along its right
edge. -/
theorem settle_under {operator : Located Reference} {fixity : Fixity} {tree : OperatorTree}
    (grouped : tree.Grouped registry) (under : tree.Under registry fixity .left)
    {pending : List PendingOperation} (stays : Stays pending operator fixity) :
    settle operator fixity (tree.edge registry ++ pending) tree.last = .ok (pending, tree) := by
  cases tree with
  | operand expression => exact stays _
  | operation root left right =>
    rcases under with tighter | ⟨level, isLeft, rootLeft⟩
    · rw [settle_edge grouped _ pending, stays]
      rintro _ _ _ ⟨rfl, rfl, rfl⟩
      exact tighter
    · obtain ⟨-, rightUnder, -, rightGrouped⟩ := grouped
      -- The root groups to the left, so what stands on its right binds tighter.
      have rightTighter : ∀ inner first second, right = .operation inner first second →
          fixity.precedence < (registry.fixityOf inner).precedence := by
        rintro inner first second rfl
        rcases rightUnder with deeper | ⟨-, rootRight, -⟩
        · order
        · rw [rootLeft] at rootRight
          cases rootRight
      have noConflict : PendingOperation.conflict? ⟨left, root, registry.fixityOf root⟩ operator
            fixity = none := by
        simp [PendingOperation.conflict?, rootLeft, isLeft]
      rw [OperatorTree.edge, OperatorTree.last, List.append_assoc,
        settle_edge rightGrouped rightTighter, List.singleton_append, settle, noConflict]
      simp [level, isLeft, PendingOperation.complete]

/-- What an operator admits on its right it also admits further left below that. -/
theorem under_left {outer : Fixity} {operator : Located Reference} {left right : OperatorTree}
    (grouped : (OperatorTree.operation operator left right).Grouped registry)
    (under : (OperatorTree.operation operator left right).Under registry outer .right) :
    left.Under registry outer .right := by
  cases left with
  | operand expression => trivial
  | operation inner first second =>
    obtain ⟨innerUnder, -⟩ := grouped
    rcases under with tighter | ⟨level, outerRight, isRight⟩
    · rcases innerUnder with deeper | ⟨same, -⟩
      · exact .inl (lt_trans tighter deeper)
      · exact .inl (same ▸ tighter)
    · rcases innerUnder with deeper | ⟨-, isLeft, -⟩
      · exact .inl (level ▸ deeper)
      · rw [isRight] at isLeft
        cases isLeft

/-- Along the steps of a grouped tree, the search reaches the right edge of the tree. -/
theorem findGroupingFrom_steps {tree : OperatorTree} (grouped : tree.Grouped registry)
    {pending : List PendingOperation} (takes : TopTakes registry pending tree)
    {clauses : List (Clause Reference Expression)}
    (same : clauses.map (fun clause => (clause.operator, clause.expression)) = tree.steps)
    (rest : List (Clause Reference Expression)) :
    findGroupingFrom registry pending (.operand tree.first) (clauses ++ rest) =
      findGroupingFrom registry (tree.edge registry ++ pending) tree.last rest := by
  induction tree generalizing pending clauses rest with
  | operand expression =>
    obtain rfl := List.map_eq_nil_iff.mp same
    rfl
  | operation operator left right leftSteps rightSteps =>
    obtain ⟨leftUnder, rightUnder, leftGrouped, rightGrouped⟩ := grouped
    obtain ⟨before, others, rfl, sameLeft, further⟩ := List.map_eq_append_iff.mp same
    obtain ⟨clause, after, rfl, head, sameRight⟩ := List.map_eq_cons_iff.mp further
    obtain ⟨rfl, isFirst⟩ := Prod.mk.inj head
    have takesLeft : TopTakes registry pending left := fun top isTop =>
      under_left ⟨leftUnder, rightUnder, leftGrouped, rightGrouped⟩ (takes top isTop)
    have admits : TopAdmits pending (registry.fixityOf clause.operator) := takes
    have settled := settle_under leftGrouped leftUnder (stays_of_topAdmits admits clause.operator)
    have takesRight : TopTakes registry
          (⟨left, clause.operator, registry.fixityOf clause.operator⟩ :: pending) right := by
      intro top isTop
      obtain rfl := Option.some.inj isTop
      exact rightUnder
    calc
      findGroupingFrom registry pending (.operand left.first)
          ((before ++ clause :: after) ++ rest)
      _ = findGroupingFrom registry (left.edge registry ++ pending) left.last
          (clause :: (after ++ rest)) := by
        rw [List.append_assoc, List.cons_append, leftSteps leftGrouped takesLeft sameLeft]
      _ = findGroupingFrom registry
          (⟨left, clause.operator, registry.fixityOf clause.operator⟩ :: pending)
          (.operand clause.expression) (after ++ rest) := by
        rw [findGroupingFrom, settled]
        rfl
      _ = findGroupingFrom registry
          (right.edge registry ++
            ⟨left, clause.operator, registry.fixityOf clause.operator⟩ :: pending)
          right.last rest := by
        rw [isFirst, rightSteps rightGrouped takesRight sameRight]
      _ = findGroupingFrom registry
          ((OperatorTree.operation clause.operator left right).edge registry ++ pending)
          right.last rest := by
        rw [OperatorTree.edge, List.append_assoc, List.singleton_append]

/-- Operands and operators in turn determine what is taken in turn. -/
theorem steps_eq_of_items {first second : List (Located Reference × Expression)}
    (same : first.flatMap (fun step => [ChainItem.operator step.1, .operand step.2]) =
      second.flatMap fun step => [ChainItem.operator step.1, .operand step.2]) :
    first = second := by
  induction first generalizing second with
  | nil =>
    cases second with
    | nil => rfl
    | cons step rest => cases same
  | cons step rest ih =>
    cases second with
    | nil => cases same
    | cons other others =>
      simp only [List.flatMap_cons, List.cons_append, List.nil_append, List.cons.injEq,
        ChainItem.operator.injEq, ChainItem.operand.injEq] at same
      obtain ⟨sameOperator, sameOperand, sameRest⟩ := same
      rw [Prod.ext sameOperator sameOperand, ih sameRest]

/-- The steps of a tree over a chain are its clauses, behind its first operand. -/
theorem steps_of_inorder {left : Expression} {clauses : List (Clause Reference Expression)}
    {tree : OperatorTree} (order : tree.inorder = chainItems left clauses) :
    tree.first = left ∧
    clauses.map (fun clause => (clause.operator, clause.expression)) = tree.steps := by
  rw [tree.inorder_eq, chainItems] at order
  obtain ⟨isFirst, items⟩ := List.cons.inj order
  refine ⟨ChainItem.operand.inj isFirst, steps_eq_of_items ?_⟩
  rw [items, List.flatMap_map]

/-- The search finds any grouping that there is. -/
theorem findGrouping_of_isGrouping {left : Expression}
    {clauses : List (Clause Reference Expression)} {tree : OperatorTree}
    (grouping : IsGrouping registry left clauses tree) :
    findGrouping registry left clauses = .ok tree := by
  obtain ⟨rfl, sameSteps⟩ := steps_of_inorder grouping.inorder
  have takes : TopTakes registry [] tree := fun _ isTop => by cases isTop
  have found := findGroupingFrom_steps grouping.grouped takes sameSteps []
  calc findGrouping registry tree.first clauses
    _ = findGroupingFrom registry [] (.operand tree.first) (clauses ++ []) := by
        rw [List.append_nil]
        rfl
    _ = findGroupingFrom registry (tree.edge registry ++ []) tree.last [] := found
    _ = .ok (completeAll (tree.edge registry) tree.last) := by
        rw [List.append_nil, findGroupingFrom]
    _ = .ok tree := by rw [tree.completeAll_edge]

end Marginalia
