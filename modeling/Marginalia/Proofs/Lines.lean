import Marginalia.Proofs.Scan.Partition
import Mathlib.Data.List.TakeWhile

/-!
# Pieces and lines of texts

A text is split at its separators and nowhere else. The line at an offset of a text is said without
reference to splitting: the longest stretch around the offset that has no line break in it. Main
statement: a place told by counting tells which line of the text that is, and how far the offset is
from its beginning.
-/

namespace Marginalia

/-! ## Pieces -/

namespace Text

variable {separator : CodeUnit}

/-- What stands before a separator is split on its own. -/
theorem split_append (first rest : Text) :
    (first ++ separator :: rest).split separator = first.split separator ++
      rest.split separator := by
  induction first with
  | nil => simp [split]
  | cons u more ih =>
    by_cases same : u = separator
    · simp [split, same, ih]
    · rw [List.cons_append, split, if_neg same, ih, split, if_neg same]
      cases pieces : split separator more with
      | nil => exact absurd pieces (split_ne_nil separator more)
      | cons piece others => rfl

/-- A text without separators is a single piece. -/
theorem split_of_notMem {piece : Text} (outside : separator ∉ piece) :
    piece.split separator = [piece] := by
  induction piece with
  | nil => rfl
  | cons u more ih =>
    obtain ⟨other, further⟩ := List.ne_and_not_mem_of_not_mem_cons outside
    rw [split, if_neg other.symm, ih further]

/-- The pieces of a text have no separators in them. -/
theorem notMem_of_mem_split {text : Text} : ∀ piece ∈ text.split separator, separator ∉ piece := by
  induction text with
  | nil => simp [split]
  | cons u rest ih =>
    by_cases same : u = separator
    · simpa [split, same] using ih
    · rw [split, if_neg same]
      cases pieces : split separator rest with
      | nil => simpa using Ne.symm same
      | cons first others =>
        rw [pieces] at ih
        obtain ⟨inFirst, inOthers⟩ := List.forall_mem_cons.mp ih
        refine List.forall_mem_cons.mpr ⟨?_, inOthers⟩
        simpa [inFirst] using Ne.symm same

/-- Pieces without separators are what their text is split into. -/
theorem split_intercalate {pieces : List Text} (outside : ∀ piece ∈ pieces, separator ∉ piece)
    (some : pieces ≠ []) : split separator ([separator].intercalate pieces) = pieces := by
  induction pieces with
  | nil => exact absurd rfl some
  | cons piece others ih =>
    obtain ⟨first, further⟩ := List.forall_mem_cons.mp outside
    cases others with
    | nil => simpa [List.intercalate] using split_of_notMem first
    | cons next rest =>
      have onward := ih further (List.cons_ne_nil _ _)
      have spelled : [separator].intercalate (piece :: next :: rest) =
          piece ++ separator :: [separator].intercalate (next :: rest) := by
        simp [List.intercalate, List.intersperse]
      rw [spelled, split_append, split_of_notMem first, onward]
      rfl

/-- There is one piece more than there are separators. -/
theorem length_split (text : Text) : (text.split separator).length = text.count separator + 1 := by
  induction text with
  | nil => rfl
  | cons u rest ih =>
    by_cases same : u = separator
    · subst same
      simp [split, ih]
    · rw [split, if_neg same, List.count_cons_of_ne same, ← ih]
      cases pieces : split separator rest with
      | nil => exact absurd pieces (split_ne_nil separator rest)
      | cons piece others => rfl

/-! ## Lines -/

/-- The text has the line at the offset, between what is above and what is below. -/
structure LineAt (text : Text) (offset : Nat) (above line below : Text) : Prop where
  /-- The three make up the text. -/
  split : text = above ++ (line ++ below)
  /-- The line is a single one. -/
  single : newline ∉ line
  /-- It begins where the text does or behind a line break. -/
  begins : above = [] ∨ above.getLast? = some newline
  /-- It ends where the text does or before a line break. -/
  ends : below = [] ∨ below.head? = some newline
  /-- It does not begin behind the offset. -/
  above_le : above.length ≤ offset
  /-- It does not end before the offset. -/
  le_line : offset ≤ above.length + line.length

/-- The line at an offset is the one behind as many lines as there are line breaks above it. -/
theorem LineAt.getElem?_lines {text above line below : Text} {offset : Nat}
    (lineAt : text.LineAt offset above line below) :
    text.lines[above.count newline]? = some line := by
  have first : (line ++ below).lines[0]? = some line := by
    rcases lineAt.ends with rfl | ends
    · rw [List.append_nil, lines, split_of_notMem lineAt.single]
      rfl
    · obtain ⟨rest, rfl⟩ := List.head?_eq_some_iff.mp ends
      rw [lines, split_append, split_of_notMem lineAt.single]
      rfl
  rw [lineAt.split]
  rcases lineAt.begins with rfl | begins
  · exact first
  · obtain ⟨upper, rfl⟩ := List.getLast?_eq_some_iff.mp begins
    have index : (upper ++ [newline]).count newline = (Text.split newline upper).length + 0 := by
      rw [length_split, List.count_append, List.count_singleton_self]
    rw [List.append_assoc, List.singleton_append, lines, split_append, index,
      List.getElem?_append_right (Nat.le_add_right _ _), Nat.add_sub_cancel_left]
    exact first

/-- No line break stands before the first one. -/
theorem newline_notMem_takeWhile (text : Text) : newline ∉ text.takeWhile (· != newline) := by
  intro member
  simpa using List.mem_takeWhile_imp member

/-- From the first line break on a text is empty or begins with it. -/
theorem dropWhile_newline (text : Text) :
    text.dropWhile (· != newline) = [] ∨ (text.dropWhile (· != newline)).head? = some newline := by
  have stops := List.head?_dropWhile_not (· != newline) text
  cases rest : text.dropWhile (· != newline) with
  | nil => exact .inl rfl
  | cons u others =>
    rw [rest] at stops
    exact .inr (by simpa using stops)

end Text

/-- At a place of a source told by counting, the number of the line is one more than the line breaks
above the line there, and the column is one more than the code units of the line before the
place. -/
theorem Position.Counted.lineAt {source : Text} {position : Position}
    (counted : position.Counted source) :
    ∃ above line below, source.LineAt position.offset above line below ∧
      position.line = above.count Text.newline + 1 ∧
      position.column = position.offset - above.length + 1 := by
  -- Seen backwards from the place, the line goes on to the first line break.
  let front := source.take position.offset
  let rest := source.drop position.offset
  let head := (front.reverse.takeWhile (· != Text.newline)).reverse
  let above := (front.reverse.dropWhile (· != Text.newline)).reverse
  have frontSplit : above ++ head = front := by
    rw [← List.reverse_append, List.takeWhile_append_dropWhile, List.reverse_reverse]
  have single : Text.newline ∉ head :=
    fun member => Text.newline_notMem_takeWhile _ (List.mem_reverse.mp member)
  have begins : above = [] ∨ above.getLast? = some Text.newline := by
    rw [List.reverse_eq_nil_iff, List.getLast?_reverse]
    exact Text.dropWhile_newline front.reverse
  have length : above.length + head.length = position.offset := by
    rw [← List.length_append, frontSplit]
    exact List.length_take_of_le counted.inside
  have count : front.count Text.newline = above.count Text.newline := by
    rw [← frontSplit, List.count_append, List.count_eq_zero.mpr single, Nat.add_zero]
  refine ⟨above, head ++ rest.takeWhile (· != Text.newline), rest.dropWhile (· != Text.newline),
    ⟨?_, ?_, begins, Text.dropWhile_newline rest, ?_, ?_⟩, ?_, ?_⟩
  · rw [List.append_assoc, List.takeWhile_append_dropWhile, ← List.append_assoc, frontSplit,
      List.take_append_drop]
  · exact fun member => (List.mem_append.mp member).elim single (Text.newline_notMem_takeWhile rest)
  · omega
  · rw [List.length_append]
    omega
  · rw [congrArg Position.line counted.place, Position.ofOffset, ← count]
    exact Nat.add_comm 1 _
  · have behind : head.length = position.offset - above.length := by omega
    rw [congrArg Position.column counted.place, Position.ofOffset, ← behind, List.length_reverse]
    exact Nat.add_comm 1 _

end Marginalia
