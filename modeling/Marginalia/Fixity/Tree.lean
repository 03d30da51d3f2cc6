import Marginalia.Fixity

/-!
# Grouping operator chains

A chain is grouped by climbing from precedence to precedence. A climb takes up the operators that
bind no less tightly than the precedence it is from, and before the operation of one of them is
complete, its right operand takes up by a climb of its own what follows and binds tighter, or as
tightly to the right. The climb for what binds tighter is from one more than the precedence of the
operation.

The clauses of a chain are taken in order. The climbs that have begun and not ended are a stack of
operations that wait for their right operands, each with the precedence its climb is from.
-/

namespace Marginalia

/-- A chain with its grouping made explicit. -/
inductive OperatorTree where
  | operand (expression : Expression)
  | operation (operator : Located Reference) (left right : OperatorTree)

namespace OperatorTree

/-- From the start of the first operand to the end of the last one. -/
def span : OperatorTree → Span
  | operand expression => expression.span
  | operation _ left right => ⟨left.span.start, right.span.stop⟩

end OperatorTree

/-- An operator whose left operand is complete and whose right one is not. -/
structure PendingOperation where
  /-- The operand on the left. -/
  left : OperatorTree
  /-- The operator. -/
  operator : Located Reference
  /-- The operator's fixity. -/
  fixity : Fixity

namespace PendingOperation

/-- Completes an operation by its right operand. -/
def complete (pending : PendingOperation) (right : OperatorTree) : OperatorTree :=
  .operation pending.operator pending.left right

/-- What forbids an operator after a waiting one of the same precedence. -/
def conflict? (pending : PendingOperation) (operator : Located Reference) (fixity : Fixity) :
    Option FixityError :=
  let first := pending.operator.value.symbol
  let second := operator.value.symbol
  if pending.fixity.associativity = .none ∨ fixity.associativity = .none then
    some (.nonAssociative first second pending.fixity.precedence operator.span)
  else if pending.fixity.associativity ≠ fixity.associativity then
    some (.mixed (first, pending.fixity.associativity) (second, fixity.associativity)
      pending.fixity.precedence operator.span)
  else
    none

/-- The precedence from which on the right operand of a waiting operation climbs, if it takes up an
operator that follows. -/
def climbsFrom? (pending : PendingOperation) (operator : Located Reference) (fixity : Fixity) :
    Except FixityError (Option Precedence) :=
  if pending.fixity.precedence < fixity.precedence then
    .ok (some pending.fixity.precedence.plusOne)
  else if fixity.precedence < pending.fixity.precedence then
    .ok none
  else
    match pending.conflict? operator fixity with
    | some error => .error error
    | none =>
      .ok (if pending.fixity.associativity = .right then some pending.fixity.precedence else none)

end PendingOperation

/-- An operation that waits in a climb. -/
structure ClimbingOperation extends PendingOperation where
  /-- The precedence that the climb is from; without one it takes up every operator. -/
  least : Option Precedence

/-- Takes up an operator that comes in behind a tree: completes the operations on whose right
operand nothing more is put, ends the climbs that are from a higher precedence, and lets the
operator's operation wait in the climb that goes on or begins. -/
def takeUp (operator : Located Reference) (fixity : Fixity) :
    List ClimbingOperation → OperatorTree → Except FixityError (List ClimbingOperation)
  | [], left => .ok [⟨⟨left, operator, fixity⟩, none⟩]
  | top :: outer, right =>
    match top.climbsFrom? operator fixity with
    | .error error => .error error
    | .ok (some least) => .ok (⟨⟨right, operator, fixity⟩, some least⟩ :: top :: outer)
    | .ok none =>
      if top.least.any (fixity.precedence < ·) then
        takeUp operator fixity outer (top.complete right)
      else
        .ok (⟨⟨top.complete right, operator, fixity⟩, top.least⟩ :: outer)

/-- Completes all waiting operations, innermost first. -/
def completeAll (pending : List PendingOperation) (right : OperatorTree) : OperatorTree :=
  pending.foldl (fun tree operation => operation.complete tree) right

/-- Groups the clauses that follow, with operations waiting for the operand read last. -/
def associateFrom (registry : Registry) :
    List ClimbingOperation → OperatorTree → List (Clause Reference Expression) →
      Except FixityError OperatorTree
  | climbs, last, [] => .ok (completeAll (climbs.map (·.toPendingOperation)) last)
  | climbs, last, clause :: rest => do
    let fixity := registry.fixity clause.operator.value.symbol
    let climbs ← takeUp clause.operator fixity climbs last
    associateFrom registry climbs (.operand clause.expression) rest

/-- Groups a chain by the fixities of its operators. -/
def associate (registry : Registry) (left : Expression)
    (clauses : List (Clause Reference Expression)) : Except FixityError OperatorTree :=
  associateFrom registry [] (.operand left) clauses

/-- A chain in an expression together with its grouping. -/
structure ResolvedChain where
  /-- The chain as it was written. -/
  expression : Expression
  /-- Its grouping. -/
  tree : OperatorTree

/-- Groups an expression that is a chain; others have nothing to group. -/
def Expression.resolveChain? (registry : Registry) (expression : Expression) :
    Option (Except FixityError ResolvedChain) :=
  match expression.node with
  | .chain left clauses _ => some ((associate registry left clauses).map (⟨expression, ·⟩))
  | _ => none

/-- Groups the chains among some expressions, up to the first that cannot be grouped. -/
def resolveChains (registry : Registry) (expressions : List Expression) :
    Except FixityError (List ResolvedChain) :=
  (expressions.filterMap (·.resolveChain? registry)).mapM id

/-- Groups every chain in an expression, parents first. -/
def Expression.resolve (expression : Expression) (registry : Registry) :
    Except FixityError (List ResolvedChain) :=
  resolveChains registry expression.preorder

/-- Groups every chain in the definitions of a module. -/
def Module.resolve (module : Module) (registry : Registry) :
    Except FixityError (List ResolvedChain) :=
  resolveChains registry (module.expressions.flatMap Expression.preorder)

end Marginalia
