import Marginalia.Decimal

/-!
# Keyed collections

A collection of values by their keys that remembers the order in which keys came in. Giving a key a
new value keeps its place. Members of a JSON object have another order: keys that are indices come
first, ascending.
-/

namespace Marginalia

/-- Values by keys, in order. -/
structure Keyed (α : Type) where
  /-- The keys and their values. -/
  entries : List (Text × α)
deriving DecidableEq, Repr, Inhabited

namespace Keyed

/-- The collection without keys. -/
def empty : Keyed α := ⟨[]⟩

/-- The value of a key. -/
def get? (collection : Keyed α) (key : Text) : Option α :=
  (collection.entries.find? (·.1 == key)).map (·.2)

/-- The key has a value. -/
def contains (collection : Keyed α) (key : Text) : Bool := collection.entries.any (·.1 == key)

/-- Entries in which the key has the given value: in its place, or at the end. -/
def insertEntry (key : Text) (value : α) : List (Text × α) → List (Text × α)
  | [] => [(key, value)]
  | entry :: rest =>
    if entry.1 = key then (key, value) :: rest else entry :: insertEntry key value rest

/-- Gives a key a value; a new key comes last. -/
def insert (collection : Keyed α) (key : Text) (value : α) : Keyed α :=
  ⟨insertEntry key value collection.entries⟩

/-- The collection with the entries of another one inserted in order: where both have a key, the
other's value. -/
def merge (base override : Keyed α) : Keyed α :=
  override.entries.foldl (fun collection entry => collection.insert entry.1 entry.2) base

/-- The collection of a list of entries, in which the last value of a key counts. -/
def ofList (entries : List (Text × α)) : Keyed α := merge empty ⟨entries⟩

/-- The index that a key spells: digits without needless zeros, below the greatest number of 32
bits. -/
def index? (key : Text) : Option Nat :=
  let value := Decimal.valueOf 10 key
  if key.all CodeUnit.isDigit && Text.ofNat value == key && value <
    4294967295 then some value else none

/-- The entries with the keys that are indices first, ascending, and then the others in order. -/
def inMemberOrder (collection : Keyed α) : Keyed α :=
  let (indices, others) := collection.entries.partition fun entry => (index? entry.1).isSome
  ⟨indices.mergeSort (fun first second => (index? first.1).getD 0 ≤ (index? second.1).getD 0) ++
      others⟩

end Keyed

end Marginalia
