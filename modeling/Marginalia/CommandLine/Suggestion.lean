import Marginalia.Collation

/-!
# Suggestions for misspelled words

The outer layer, as the library does it that the program reads its arguments with; no theorem is
about it. A word that is not known is compared with those that are. The distance of two words is the
number of letters to insert, delete, replace or swap with their neighbour, no part being changed
twice. The nearest words are suggested if they are near enough.
-/

namespace Marginalia.CommandLine

/-- The greatest distance of a suggested word. -/
def maxDistance : Nat := 3

/-- The distances of all beginnings of a word from a growing beginning of another one. -/
structure Rows where
  /-- The last letter of the beginning. -/
  last : Option CodeUnit
  /-- The distances from the beginning without its last letter. -/
  earlier : List Nat
  /-- The distances from the beginning. -/
  current : List Nat

/-- One distance of the next row: that of the beginning of `word` which ends at an index, where
`left` is the distance of the beginning without that letter. -/
def Rows.cell (rows : Rows) (word : Text) (letter : CodeUnit) (index left : Nat) : Nat :=
  let cost := if word[index]? = some letter then 0 else 1
  let changed := min (min (rows.current.getD (index + 1) 0 + 1) (left + 1))
    (rows.current.getD index 0 + cost)
  match index with
  | 0 => changed
  | before + 1 =>
    if rows.last.isSome ∧ rows.last = word[index]? ∧ word[before]? = some letter then
      min changed (rows.earlier.getD before 0 + 1)
    else
      changed

/-- The rows after one more letter. -/
def Rows.next (word : Text) (rows : Rows) (letter : CodeUnit) : Rows :=
  let row := (List.range word.length).foldl
    (fun cells index => cells ++ [rows.cell word letter index (cells.getD index 0)])
    [rows.current.getD 0 0 + 1]
  ⟨some letter, rows.current, row⟩

/-- The distance of two words. -/
def distance (first second : Text) : Nat :=
  (first.foldl (Rows.next second) ⟨none, [], List.range (second.length + 1)⟩).current.getLastD 0

/-- The distance of two words; words of very different lengths count as having nothing in common. -/
def roughDistance (first second : Text) : Nat :=
  if first.length + maxDistance < second.length ∨ second.length + maxDistance < first.length then
    max first.length second.length
  else
    distance first second

/-- More than two fifths of the longer word agree. -/
def isSimilar (word candidate : Text) : Bool :=
  let length := max word.length candidate.length
  2 * length < 5 * (length - roughDistance word candidate)

/-- The candidates nearest to a word among those that are similar and near enough, in alphabetical
order. No word of one letter is suggested. -/
def nearest (word : Text) (candidates : List Text) : List Text :=
  let similar := candidates.filter fun candidate =>
    1 < candidate.length && isSimilar word candidate && roughDistance word candidate ≤ maxDistance
  let least := similar.foldl
    (fun best candidate => min best (roughDistance word candidate)) maxDistance
  (similar.filter fun candidate => roughDistance word candidate == least).mergeSort
    Collation.precedes

/-- The two dashes in front of a long option. -/
def dashes : Text := "--"

/-- What is said about the known words near to an unknown one. Long options are compared without
their dashes. -/
def suggestion (word : Text) (candidates : List Text) : Text :=
  let candidates := candidates.eraseDups
  let near :=
    if dashes.isPrefixOf word then
      (nearest (word.drop 2) (candidates.map (·.drop 2))).map (dashes ++ ·)
    else
      nearest word candidates
  match near with
  | [] => []
  | [only] => "\n(Did you mean " ++ only ++ "?)"
  | several => "\n(Did you mean one of " ++ (Text.ofString ", ").intercalate several ++ "?)"

end Marginalia.CommandLine
