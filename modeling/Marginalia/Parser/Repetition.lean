import Marginalia.Parser

/-!
# Repetition and bracketed sequences

Every repetition has a bound taken from the input. A step that goes on has consumed something, and
the bound is larger than the number of times that something can be consumed.
-/

namespace Marginalia.Parser

/-- At most `bound` values, until a run fails at once, gives no value or consumes nothing. -/
def valuesUpTo (parser : Parser (Option α)) : Nat → Parser (List α)
  | 0 => interrupt .exhausted
  | bound + 1 => do
    let before ← cursor
    match ← optional parser with
    | some (some value) =>
      if (← cursor).movedFrom before then
        return value :: (← valuesUpTo parser bound)
      else
        return [value]
    | _ => return []

/-- The values of a parser as often as it gives one. A run that fails at once or gives no value ends
the list, and so does, after its value, a run that consumes nothing. -/
def values (parser : Parser (Option α)) : Parser (List α) := fun input =>
  valuesUpTo parser input.repetitionLimit input

/-- A parser as often as it succeeds. -/
def many (parser : Parser α) : Parser (List α) := values (some <$> parser)

/-- The comma-separated items of a sequence up to its closing token, and, when it has none, the
comments in it. -/
structure Items (α : Type) where
  /-- The items, each with the comments on both sides. -/
  items : List (Commented α)
  /-- The comments in an empty sequence. -/
  trailing : Comments

/-- At most `bound` items and the closing token, after the comments before the first item. -/
def itemsUpTo (close : TokenKind) (item : Parser α) (label : String) :
    Nat → Comments → Parser (List (Commented α))
  | 0, _ => interrupt .exhausted
  | bound + 1, before => do
    let value ← item
    let after ← whitespace
    if ← peekIs .comma then
      let _ ← token .comma "','"
      let next ← whitespace
      return ⟨before, value, after⟩ :: (← itemsUpTo close item label bound next)
    else
      let _ ← token close label
      return [⟨before, value, after⟩]

/-- Comma-separated items up to a closing token, the opening one already consumed. -/
def separated (close : TokenKind) (item : Parser α) (label : String) : Parser (Items α) := do
  let before ← whitespace
  if ← peekIs close then
    let _ ← token close label
    return ⟨[], before⟩
  else
    let items ← fun input => itemsUpTo close item label input.repetitionLimit before input
    return ⟨items, []⟩

/-- A sequence with its opening token, and whether it crosses a line break. -/
def group (openingKind close : TokenKind) (item : Parser α) (label : String) :
    Parser (Items α × Bool) :=
  trackNewline do
    let _ ← token openingKind label
    separated close item label

end Marginalia.Parser
