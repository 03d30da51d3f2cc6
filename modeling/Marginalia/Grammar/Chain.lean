import Marginalia.Parser.Repetition
import Marginalia.Syntax.Expression

/-!
# Operator chains

    chain = term {operator (term | last)}

A chain is read flat. An operand that extends as far right as possible can only be the last one, so
after it the chain ends. The rule is written over the parsers of operands and operators, whatever
these give.
-/

namespace Marginalia.Grammar
open Marginalia.Parser

/-- An operand and the clauses after it. -/
structure OperatorChain (ω α : Type) where
  /-- The first operand. -/
  left : α
  /-- The operators, each with the operand on its right. -/
  clauses : List (Clause ω α)
  /-- Whether the chain crosses a line break. -/
  layout : Layout

/-- One operator and its right operand, and whether the chain ends with it. -/
def chainClause (term last : Parser α) (operator : Parser ω) : Parser (Clause ω α × Bool) := do
  let preOperator ← whitespace
  let operator ← located operator
  let preExpression ← whitespace
  let (operand, final) ← expecting "an expression" (choice
    [do return (← attempt term, false),
      do return (← last, true)])
  return (⟨preOperator, operator, preExpression, operand⟩, final)

/-- A clause, once an operator is in sight. -/
def chainStep (term last : Parser α) (operator : Parser ω) : Parser (Clause ω α × Bool) :=
  commitIf (do let _ ← whitespace; operator) (chainClause term last operator)

/-- At most `bound` clauses. -/
def clausesUpTo (term last : Parser α) (operator : Parser ω) : Nat → Parser (List (Clause ω α))
  | 0 => interrupt .exhausted
  | bound + 1 => do
    match ← optional (chainStep term last operator) with
    | none => return []
    | some (clause, true) => return [clause]
    | some (clause, false) => return clause :: (← clausesUpTo term last operator bound)

/-- The clauses that follow an operand. -/
def clauses (term last : Parser α) (operator : Parser ω) :
    Parser (List (Clause ω α)) := fun input =>
  clausesUpTo term last operator input.repetitionLimit input

/-- A whole chain and its span. -/
def operatorChain (term last : Parser α) (operator : Parser ω) :
    Parser (Located (OperatorChain ω α)) :=
  located do
    let ((left, following), crossed) ← trackNewline do
      let left ← term
      return (left, ← clauses term last operator)
    return ⟨left, following, .ofCrossed crossed⟩

end Marginalia.Grammar
