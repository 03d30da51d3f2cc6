import Marginalia.Proofs.Scan.Division

/-!
# Stretches of a source

What stands between two places of a source, and what the tokens of the source say of it: over the
span of a token stands its lexeme, and the token stops where advancing over the lexeme leads.
-/

namespace Marginalia

namespace Text

/-- Two stretches that meet make up one. -/
theorem slice_append_slice (text : Text) {start middle stop : Nat} (first : start ≤ middle)
    (second : middle ≤ stop) :
    text.slice start middle ++ text.slice middle stop = text.slice start stop := by
  have count : stop - start = (middle - start) + (stop - middle) := by omega
  have place : start + (middle - start) = middle := by omega
  rw [slice, slice, slice, count, List.take_add, List.drop_drop, place]

/-- A stretch that stops where it starts, or before, is empty. -/
theorem slice_of_le (text : Text) {start stop : Nat} (le : stop ≤ start) :
    text.slice start stop = [] := by
  rw [slice, Nat.sub_eq_zero_of_le le, List.take_zero]

/-- A stretch within a text is empty only if it stops where it starts, or before. -/
theorem slice_eq_nil_iff {text : Text} {start stop : Nat} (inside : stop ≤ text.length) :
    text.slice start stop = [] ↔ stop ≤ start := by
  constructor
  · intro empty
    have none := congrArg List.length empty
    rw [slice, List.length_take, List.length_drop, List.length_nil] at none
    omega
  · exact slice_of_le text

/-- The stretch of a part of a text is that part. -/
theorem slice_part (before part after : Text) :
    (before ++ (part ++ after)).slice before.length (before.length + part.length) = part := by
  rw [slice, List.drop_left, Nat.add_sub_cancel_left, List.take_left]

/-- A line break is in the one part or in the other. -/
theorem hasNewline_append (first second : Text) :
    (first ++ second).hasNewline = (first.hasNewline || second.hasNewline) := by
  rw [hasNewline, hasNewline, hasNewline, Bool.eq_iff_iff]
  simp

end Text

/-- Places in one column lead to places in one column over the same text. -/
theorem Position.column_advance {position other : Position} (same : position.column = other.column)
    (text : Text) : (position.advance text).column = (other.advance text).column := by
  induction text generalizing position other with
  | nil => exact same
  | cons u rest ih =>
    have next : (position.step u).column = (other.step u).column := by
      unfold step
      split
      · rfl
      · exact congrArg (· + 1) same
    exact ih next

namespace Scan

/-- A token of a text stops where its lexeme leads. -/
theorem Divides.stop_eq {position : Position} {text : Text} {found : List Token}
    (divides : Divides position text found) :
    ∀ token ∈ found, token.span.stop = token.span.start.advance token.lexeme := by
  induction divides with
  | done position => simp [Position.advance]
  | blank _ _ ih => exact ih
  | token _ _ _ ih => exact List.forall_mem_cons.mpr ⟨rfl, ih⟩

/-- A token stands in the source: over its span stands its lexeme, and it stops within the
source. -/
def Stretches (source : Text) (token : Token) : Prop :=
  source.slice token.span.start.offset token.span.stop.offset = token.lexeme ∧
    token.span.stop.offset ≤ source.length

/-- The tokens of what is left of a source stand in the source. -/
theorem Divides.stretches {position : Position} {text : Text} {found : List Token}
    (divides : Divides position text found) :
    ∀ before : Text, position.offset = before.length →
      ∀ token ∈ found, Stretches (before ++ text) token := by
  induction divides with
  | done position =>
    intro before offset token member
    obtain rfl := List.mem_singleton.mp member
    have upper : position.offset ≤ (before ++ []).length := by simp [offset]
    exact ⟨Text.slice_of_le _ (Nat.le_refl _), upper⟩
  | @blank position u rest tokens _ _ ih =>
    intro before offset
    have next : (position.step u).offset = (before ++ [u]).length := by
      have one := position.offset_advance [u]
      rw [List.length_append, ← offset]
      exact one
    have further := ih (before ++ [u]) next
    rw [List.append_assoc, List.singleton_append] at further
    exact further
  | @token position u tail rest kind tokens _ _ _ ih =>
    intro before offset
    have stop := position.offset_advance (u :: tail)
    have next : (position.advance (u :: tail)).offset = (before ++ (u :: tail)).length := by
      rw [stop, List.length_append, offset]
    have further := ih (before ++ (u :: tail)) next
    rw [List.append_assoc] at further
    refine List.forall_mem_cons.mpr ⟨⟨?_, ?_⟩, further⟩
    · show (before ++ (u :: tail ++ rest)).slice position.offset
        (position.advance (u :: tail)).offset = u :: tail
      rw [stop, offset, Text.slice_part]
    · show (position.advance (u :: tail)).offset ≤ (before ++ (u :: tail ++ rest)).length
      rw [stop, offset, List.length_append, List.length_append]
      omega

end Scan

end Marginalia
