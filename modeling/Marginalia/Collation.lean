import Marginalia.Text

/-!
# Alphabetical order

The outer layer: the order that a run of the program gives for names. Names of ASCII are compared as
in a dictionary: first without regard to case, with punctuation before digits before letters and a
name before those that extend it; names that differ in case only go by the first difference, the
lower case first. What order the place has where a program runs for other names is not known here.
They come last, in the order of their code units, and nothing is proved about this order: listings
take any.
-/

namespace Marginalia.Collation

/-- The ASCII characters before the digits, in order. -/
def punctuation : List Char :=
  ['\t', '\n', '\r', ' ', '_', '-', ',', ';', ':', '!', '?', '.', '\'', '"', '(', ')', '[', ']',
    '\x7b', '\x7d', '@', '*', '/', '\\', '&', '#', '%', '\x60', '^', '+', '<', '=', '>',
    '|', '~', '$']

/-- The unit is an upper-case letter of ASCII. -/
def isUpper (u : CodeUnit) : Bool := .ofChar 'A' ≤ u && u ≤ .ofChar 'Z'

/-- The place of a unit in the order without regard to case. -/
def rank (u : CodeUnit) : Nat :=
  match punctuation.findIdx? (fun c => CodeUnit.ofChar c == u) with
  | some place => place
  | none => 0x80 + (if isUpper u then u.toNat + 0x20 else u.toNat)

/-- Compares lists of numbers one by one; a list comes before those that extend it. -/
def compareRanks : List Nat → List Nat → Ordering
  | [], [] => .eq
  | [], _ :: _ => .lt
  | _ :: _, [] => .gt
  | first :: firsts, second :: seconds => (compare first second).then (compareRanks firsts seconds)

/-- Compares two names. -/
def compareNames (first second : Text) : Ordering :=
  let cases (name : Text) := name.map fun u => if isUpper u then 1 else 0
  (compareRanks (first.map rank) (second.map rank)).then (compareRanks (cases first) (cases second))

/-- The first name does not come after the second. -/
def precedes (first second : Text) : Bool := (compareNames first second).isLE

end Marginalia.Collation
