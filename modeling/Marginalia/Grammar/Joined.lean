import Marginalia.Parser.Repetition

/-!
# Operands joined by a connective

The operands of `::` in patterns and of `->` in types are read in the same way, and comments around
a connective go to the operand they are next to.
-/

namespace Marginalia.Grammar
open Marginalia.Parser

/-- A further operand of a chain: the comments before its connective, those after it, and the
operand. -/
structure Link (α : Type) where
  /-- The comments before the connective. -/
  before : Comments
  /-- The comments after the connective. -/
  after : Comments
  /-- The operand on the right of the connective. -/
  operand : α

/-- A connective with the operand that follows it, or nothing at all. -/
def link (connective : Parser Token) (operand : Parser α) : Parser (Link α) :=
  attempt do
    let before ← whitespace
    let _ ← connective
    let after ← whitespace
    return ⟨before, after, ← operand⟩

/-- The operands of a chain. The comments before each connective follow the operand on its left,
those after it precede the operand on its right. -/
def Link.operands (before : Comments) (current : α) :
    List (Link α) → Commented α × List (Commented α)
  | [] => (.pre before current, [])
  | next :: rest =>
    let (second, others) := operands next.after next.operand rest
    (⟨before, current, next.before⟩, second :: others)

/-- One or more operands joined by a connective. -/
def joined (connective : Parser Token) (operand : Parser α) :
    Parser (Commented α × List (Commented α)) := do
  let first ← operand
  let links ← many (link connective operand)
  return Link.operands [] first links

end Marginalia.Grammar
