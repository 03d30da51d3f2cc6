import Mathlib.Data.List.Nodup
import Marginalia.Keyed

/-!
# Entries by their keys

Among entries with different keys the one that is found is the one that has the key. In a collection
that others were merged into, the last entry of a key counts.

A collection with different keys is told by its keys in order and their values. Merging keeps the
keys of the base and puts the new keys of the other collection behind them, so it is associative and
idempotent.
-/

namespace Marginalia

variable {α : Type}

/-- Among entries with different keys the one that is found under a key is the one that has it. -/
theorem find?_key {entries : List (Text × α)} (distinct : (entries.map Prod.fst).Nodup)
    {key : Text} {entry : Text × α} :
    entries.find? (·.1 == key) = some entry ↔ entry ∈ entries ∧ entry.1 = key := by
  induction entries with
  | nil => simp
  | cons first rest ih =>
    rw [List.map_cons, List.nodup_cons] at distinct
    rw [List.find?_cons]
    by_cases same : first.1 = key
    · have others : ∀ other ∈ rest, other.1 ≠ key := by
        rintro other member rfl
        exact distinct.1 (same ▸ List.mem_map_of_mem member)
      simp only [beq_iff_eq.mpr same, Option.some.injEq, List.mem_cons]
      constructor
      · rintro rfl
        exact ⟨.inl rfl, same⟩
      · rintro ⟨rfl | member, isKey⟩
        · rfl
        · exact absurd isKey (others _ member)
    · rw [beq_false_of_ne same]
      simp only [ih distinct.2, List.mem_cons]
      constructor
      · rintro ⟨member, isKey⟩
        exact ⟨.inr member, isKey⟩
      · rintro ⟨rfl | member, isKey⟩
        · exact absurd isKey same
        · exact ⟨member, isKey⟩

namespace Keyed

/-- The value of a key that was inserted is the one it was given; other keys keep theirs. -/
theorem get?_insert (collection : Keyed α) (key : Text) (value : α) (other : Text) :
    (collection.insert key value).get? other = if key = other then some value
      else collection.get? other := by
  obtain ⟨entries⟩ := collection
  induction entries with
  | nil => by_cases same : key = other <;> simp [insert, insertEntry, get?, same]
  | cons first rest ih =>
    simp only [insert, insertEntry, get?] at ih ⊢
    by_cases known : first.1 = key
    · rw [if_pos known]
      by_cases same : key = other
      · simp [same]
      · simp [same, known]
    · rw [if_neg known, List.find?_cons, List.find?_cons]
      by_cases isOther : first.1 = other
      · have different : key ≠ other := fun same => known (isOther.trans same.symm)
        simp [isOther, different]
      · simp only [beq_false_of_ne isOther]
        exact ih

/-- A key that is new comes last. -/
theorem insert_of_not_contains {collection : Keyed α} {key : Text}
    (new : collection.contains key = false) (value : α) :
    (collection.insert key value).entries = collection.entries ++ [(key, value)] := by
  obtain ⟨entries⟩ := collection
  induction entries with
  | nil => rfl
  | cons first rest ih =>
    obtain ⟨other, further⟩ := Bool.or_eq_false_iff.mp new
    have onward := ih further
    simp only [insert] at onward ⊢
    rw [insertEntry, if_neg (beq_eq_false_iff_ne.mp other), onward]
    rfl

/-- A collection has the keys of its entries. -/
theorem contains_eq_false_iff {collection : Keyed α} {key : Text} :
    collection.contains key = false ↔ key ∉ collection.entries.map Prod.fst := by
  rw [contains, List.any_eq_false, List.mem_map]
  simp only [beq_iff_eq, not_exists, not_and]

/-- A key has no value exactly if it has no entry. -/
theorem get?_eq_none_iff {collection : Keyed α} {key : Text} :
    collection.get? key = none ↔ key ∉ collection.entries.map Prod.fst := by
  rw [get?, Option.map_eq_none_iff, List.find?_eq_none, List.mem_map]
  simp only [beq_iff_eq, not_exists, not_and]

/-- A last entry counts for its key only where no other one does. -/
theorem get?_concat (entries : List (Text × α)) (last : Text × α) (key : Text) :
    (⟨entries ++ [last]⟩ : Keyed α).get? key =
      ((⟨entries⟩ : Keyed α).get? key).or (if last.1 = key then some last.2 else none) := by
  simp only [get?, List.find?_append, List.find?_singleton, beq_iff_eq]
  cases entries.find? (·.1 == key) with
  | some entry => rfl
  | none => by_cases same : last.1 = key <;> simp [same]

/-- The value of a key in the last one of the entries that have it. -/
def last? (entries : List (Text × α)) (key : Text) : Option α :=
  (⟨entries.reverse⟩ : Keyed α).get? key

/-- The last one of entries in two parts is that of the second part, if it has one. -/
theorem last?_append (first second : List (Text × α)) (key : Text) :
    last? (first ++ second) key = (last? second key).or (last? first key) := by
  simp only [last?, get?, List.reverse_append, List.find?_append]
  cases second.reverse.find? (·.1 == key) <;> rfl

/-- Of entries with different keys any one is the last one. -/
theorem last?_eq_get? {collection : Keyed α} (distinct : (collection.entries.map Prod.fst).Nodup)
    (key : Text) : last? collection.entries key = collection.get? key := by
  have reversed : (collection.entries.reverse.map Prod.fst).Nodup := by
    rw [List.map_reverse]
    exact List.nodup_reverse.mpr distinct
  have same :
      collection.entries.reverse.find? (·.1 == key) = collection.entries.find? (·.1 == key) := by
    refine Option.ext fun entry => ?_
    rw [find?_key reversed, find?_key distinct, List.mem_reverse]
  rw [last?, get?, same, get?]

/-- In a collection that another one is merged into, the last entry of that other one counts. -/
theorem get?_merge (base override : Keyed α) (key : Text) :
    (base.merge override).get? key = (last? override.entries key).or (base.get? key) := by
  obtain ⟨entries⟩ := override
  induction entries generalizing base with
  | nil => rfl
  | cons first rest ih =>
    have step : base.merge ⟨first :: rest⟩ = (base.insert first.1 first.2).merge ⟨rest⟩ := rfl
    rw [step, ih, ← List.singleton_append, last?_append, get?_insert, Option.or_assoc]
    congr 1
    by_cases same : first.1 = key <;> simp [last?, get?, same]

/-! ## Merging -/

/-- The keys of a collection, in order. -/
def keys (collection : Keyed α) : List Text := collection.entries.map Prod.fst

/-- No key has two entries. -/
def Distinct (collection : Keyed α) : Prop := collection.keys.Nodup

instance (collection : Keyed α) : Decidable collection.Distinct :=
  inferInstanceAs (Decidable collection.keys.Nodup)

variable {first second third : Keyed α}

/-- An entry with another key does not matter. -/
theorem get?_cons_of_ne {entry : Text × α} {entries : List (Text × α)} {key : Text}
    (other : entry.1 ≠ key) :
    (⟨entry :: entries⟩ : Keyed α).get? key = (⟨entries⟩ : Keyed α).get? key := by
  rw [get?, List.find?_cons, beq_false_of_ne other]
  rfl

/-- Collections with different keys are the same if their keys and the values of these are. -/
theorem ext_of_distinct (distinct : first.Distinct) (sameKeys : first.keys = second.keys)
    (same : ∀ key, first.get? key = second.get? key) : first = second := by
  obtain ⟨entries⟩ := first
  obtain ⟨others⟩ := second
  induction entries generalizing others with
  | nil =>
    obtain rfl : others = [] := List.map_eq_nil_iff.mp sameKeys.symm
    rfl
  | cons entry rest ih =>
    obtain ⟨other, further, rfl, sameKey, sameRest⟩ := List.map_eq_cons_iff.mp sameKeys.symm
    obtain ⟨new, distinctRest⟩ := List.nodup_cons.mp distinct
    have value : entry.2 = other.2 := by simpa [get?, sameKey] using same entry.1
    have below : (⟨rest⟩ : Keyed α) = ⟨further⟩ := by
      refine ih distinctRest further sameRest.symm fun key => ?_
      by_cases isFirst : entry.1 = key
      · -- the first key has no further entry on either side
        subst isFirst
        rw [get?, get?, List.find?_eq_none.mpr, List.find?_eq_none.mpr]
        · rintro one member isKey
          exact new (sameRest ▸ beq_iff_eq.mp isKey ▸ List.mem_map_of_mem member)
        · rintro one member isKey
          exact new (beq_iff_eq.mp isKey ▸ List.mem_map_of_mem member)
      · have onward := same key
        rwa [get?_cons_of_ne isFirst, get?_cons_of_ne (sameKey ▸ isFirst)] at onward
    obtain rfl : rest = further := congrArg Keyed.entries below
    obtain rfl : entry = other := Prod.ext sameKey.symm value
    rfl

/-- A key that is inserted keeps its place, or comes last. -/
theorem keys_insert (collection : Keyed α) (key : Text) (value : α) :
    (collection.insert key value).keys = collection.keys ++ [key].filter (· ∉ collection.keys) := by
  obtain ⟨entries⟩ := collection
  induction entries with
  | nil => rfl
  | cons first rest ih =>
    by_cases known : first.1 = key
    · simp [insert, insertEntry, keys, known]
    · have onward : ((insertEntry key value rest).map Prod.fst) =
          rest.map Prod.fst ++ [key].filter (· ∉ rest.map Prod.fst) := ih
      have new : key ∉ first.1 :: rest.map Prod.fst ↔ key ∉ rest.map Prod.fst := by
        rw [List.mem_cons, not_or, and_iff_right (Ne.symm known)]
      rw [keys, insert, insertEntry, if_neg known, List.map_cons, onward, keys, List.map_cons,
        List.cons_append]
      congr 2
      refine List.filter_congr fun one member => ?_
      rw [List.mem_singleton.mp member]
      exact decide_eq_decide.mpr new.symm

/-- The keys of merged collections are those of the base, and behind them the new ones of the other
collection. -/
theorem keys_merge (base : Keyed α) {override : Keyed α} (distinct : override.Distinct) :
    (base.merge override).keys = base.keys ++ override.keys.filter (· ∉ base.keys) := by
  obtain ⟨entries⟩ := override
  induction entries generalizing base with
  | nil => exact (List.append_nil _).symm
  | cons first rest ih =>
    obtain ⟨new, distinctRest⟩ := List.nodup_cons.mp distinct
    have step : base.merge ⟨first :: rest⟩ = (base.insert first.1 first.2).merge ⟨rest⟩ := rfl
    have others : (keys (⟨rest⟩ : Keyed α)).filter (· ∉ (base.insert first.1 first.2).keys) =
        (keys (⟨rest⟩ : Keyed α)).filter (· ∉ base.keys) := by
      refine List.filter_congr fun key member => ?_
      have notFirst : key ≠ first.1 := fun same => new (same ▸ member)
      simp [keys_insert, notFirst]
    have split : keys (⟨first :: rest⟩ : Keyed α) = [first.1] ++ keys (⟨rest⟩ : Keyed α) := rfl
    rw [step, ih _ distinctRest, others, split, List.filter_append,
      ← List.append_assoc, keys_insert]

/-- Merging leaves no key with two entries. -/
theorem Distinct.merge (distinctFirst : first.Distinct) (distinctSecond : second.Distinct) :
    (first.merge second).Distinct := by
  rw [Distinct, keys_merge first distinctSecond]
  refine List.nodup_append.mpr ⟨distinctFirst, distinctSecond.filter _, ?_⟩
  rintro key inFirst _ inSecond rfl
  exact absurd inFirst (by simpa using (List.mem_filter.mp inSecond).2)

/-- The value of a key in merged collections is that of the other collection, or else that of the
base. -/
theorem get?_merge_of_distinct (base : Keyed α) {override : Keyed α} (distinct : override.Distinct)
    (key : Text) : (base.merge override).get? key = (override.get? key).or (base.get? key) := by
  rw [get?_merge, last?_eq_get? distinct]

/-- Merging is associative. -/
theorem merge_assoc (distinctFirst : first.Distinct) (distinctSecond : second.Distinct)
    (distinctThird : third.Distinct) :
    (first.merge second).merge third = first.merge (second.merge third) := by
  have distinctLater := distinctSecond.merge distinctThird
  refine ext_of_distinct ((distinctFirst.merge distinctSecond).merge distinctThird) ?_ fun key => ?_
  · rw [keys_merge _ distinctThird, keys_merge _ distinctLater, keys_merge _ distinctSecond,
      keys_merge _ distinctThird, List.filter_append, List.append_assoc, List.filter_filter]
    congr 2
    refine List.filter_congr fun key _ => ?_
    by_cases inFirst : key ∈ first.keys <;> simp [inFirst]
  · rw [get?_merge_of_distinct _ distinctThird, get?_merge_of_distinct _ distinctLater,
      get?_merge_of_distinct _ distinctSecond, get?_merge_of_distinct _ distinctThird,
      Option.or_assoc]

/-- Merging into no entries changes nothing. -/
theorem empty_merge (distinct : first.Distinct) : empty.merge first = first := by
  have none : (empty : Keyed α).Distinct := List.nodup_nil
  refine ext_of_distinct (none.merge distinct) ?_ fun key => ?_
  · rw [keys_merge _ distinct]
    simp [keys, empty]
  · rw [get?_merge_of_distinct _ distinct]
    simp [get?, empty]

/-- Merging no entries into a collection changes nothing. -/
theorem merge_empty (collection : Keyed α) : collection.merge empty = collection := rfl

/-- Merging a collection into itself changes nothing. -/
theorem merge_self (distinct : first.Distinct) : first.merge first = first := by
  refine ext_of_distinct (distinct.merge distinct) ?_ fun key => ?_
  · rw [keys_merge _ distinct]
    simp
  · rw [get?_merge_of_distinct _ distinct, Option.or_self]

end Keyed

end Marginalia
