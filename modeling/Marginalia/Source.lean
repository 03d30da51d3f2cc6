import Marginalia.Text

/-!
# Places in a source text

A position counts code units from the start of the source, and lines and columns from one. Only a
line feed begins a new line. A span runs from a start position up to, and not including, a stop
position.
-/

namespace Marginalia

/-- A place between two code units of a source. -/
structure Position where
  /-- Code units before this place. -/
  offset : Nat
  /-- One more than the line breaks before this place. -/
  line : Nat
  /-- One more than the code units between the last line break and this place. -/
  column : Nat
deriving DecidableEq, Repr, Inhabited

namespace Position

/-- The place before the first code unit. -/
def start : Position := ⟨0, 1, 1⟩

/-- The place after one more code unit. -/
def step (position : Position) (u : CodeUnit) : Position :=
  if u = Text.newline then
    ⟨position.offset + 1, position.line + 1, 1⟩
  else
    ⟨position.offset + 1, position.line, position.column + 1⟩

/-- The place after a piece of text. -/
def advance (position : Position) (text : Text) : Position := text.foldl step position

/-- Advancing over two pieces is advancing over one after the other. -/
theorem advance_append (position : Position) (first second : Text) :
    position.advance (first ++ second) = (position.advance first).advance second := by
  simp [advance]

/-- Each code unit adds one to the offset. -/
theorem offset_advance (position : Position) (text : Text) :
    (position.advance text).offset = position.offset + text.length := by
  induction text generalizing position with
  | nil => rfl
  | cons u rest ih =>
    have one : (position.step u).offset = position.offset + 1 := by
      unfold step; split <;> rfl
    have tail := ih (position.step u)
    simp only [advance, List.foldl_cons, List.length_cons] at tail ⊢
    omega

end Position

/-- A stretch of source between two positions. -/
structure Span where
  /-- The place before the first code unit of the stretch. -/
  start : Position
  /-- The place after the last code unit of the stretch. -/
  stop : Position
deriving DecidableEq, Repr, Inhabited

/-- A value with the stretch of source it was read from. -/
structure Located (α : Type) where
  /-- Where the value was written. -/
  span : Span
  /-- The value itself. -/
  value : α
deriving DecidableEq, Repr, Inhabited

/-- The same place with a changed value. -/
def Located.map (f : α → β) (located : Located α) : Located β := ⟨located.span, f located.value⟩

end Marginalia
