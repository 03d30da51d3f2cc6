import Marginalia.Json
import Marginalia.Proofs.Keyed
import Marginalia.Proofs.Writing.Numeral

/-!
# Members of objects

A key may be written more than once in an object: the last value that is written with it counts.
Members come in an order that is told by their keys alone, in which keys that are the digits of an
index stand first, ascending, and the others where they are first written.
-/

namespace Marginalia

namespace Keyed

variable {α : Type}

/-! ## Collecting entries -/

/-- The last one of some entries is inserted last. -/
theorem ofList_concat (entries : List (Text × α)) (last : Text × α) :
    ofList (entries ++ [last]) = (ofList entries).insert last.1 last.2 := by
  rw [ofList, merge, List.foldl_concat]
  rfl

/-- The keys of a collection are those of the entries that it was made of. -/
theorem mem_keys_ofList {entries : List (Text × α)} {key : Text} :
    key ∈ (ofList entries).keys ↔ key ∈ entries.map Prod.fst := by
  induction entries using List.reverseRecOn with
  | nil => exact Iff.rfl
  | append_singleton entries last ih =>
    rw [ofList_concat, keys_insert, List.mem_append, List.map_append, List.mem_append, ← ih]
    by_cases known : key ∈ (ofList entries).keys
    · simp [known]
    · have isLast : key ∈ [last.1].filter (· ∉ (ofList entries).keys) ↔
          key ∈ [last].map Prod.fst := by
        simp only [List.mem_filter, List.map_cons, List.map_nil, List.mem_singleton,
          decide_eq_true_eq]
        exact and_iff_left_of_imp fun same => same ▸ known
      rw [isLast]

/-- The keys of a collection stand where the entries that it was made of have them first. -/
theorem pairwise_keys_ofList (entries : List (Text × α)) :
    (ofList entries).keys.Pairwise fun first second =>
      (entries.map Prod.fst).idxOf first < (entries.map Prod.fst).idxOf second := by
  induction entries using List.reverseRecOn with
  | nil => exact List.Pairwise.nil
  | append_singleton entries last ih =>
    have place {key : Text} (member : key ∈ (ofList entries).keys) :
        ((entries ++ [last]).map Prod.fst).idxOf key = (entries.map Prod.fst).idxOf key := by
      rw [List.map_append, List.idxOf_append_of_mem (mem_keys_ofList.mp member)]
    rw [ofList_concat, keys_insert, List.pairwise_append]
    refine ⟨ih.imp_of_mem fun inFirst inSecond before => ?_,
      List.Pairwise.filter _ (List.pairwise_singleton _ _), ?_⟩
    · rwa [place inFirst, place inSecond]
    · intro first inFirst second isLast
      obtain ⟨isSecond, new⟩ := List.mem_filter.mp isLast
      obtain rfl := List.mem_singleton.mp isSecond
      have new : last.1 ∉ entries.map Prod.fst :=
        fun member => of_decide_eq_true new (mem_keys_ofList.mpr member)
      rw [place inFirst, List.map_append, List.idxOf_append_of_notMem new]
      exact Nat.lt_add_right _ (List.idxOf_lt_length_of_mem (mem_keys_ofList.mp inFirst))

/-- Keys that stand in different places are different. -/
theorem distinct_of_pairwise {collection : Keyed α} {written : List Text}
    (ordered : collection.keys.Pairwise fun first second =>
      written.idxOf first < written.idxOf second) : collection.Distinct :=
  ordered.imp fun before same => by
    subst same
    exact Nat.lt_irrefl _ before

/-- A collection that was made of entries has no key twice. -/
theorem distinct_ofList (entries : List (Text × α)) : (ofList entries).Distinct :=
  distinct_of_pairwise (pairwise_keys_ofList entries)

/-- Of the entries that a collection was made of the last one counts. -/
theorem get?_ofList (entries : List (Text × α)) (key : Text) :
    (ofList entries).get? key = last? entries key := by
  rw [ofList, get?_merge]
  exact Option.or_none

/-- A key has a value exactly if they are an entry. -/
theorem get?_eq_some_iff {collection : Keyed α} (distinct : collection.Distinct) {key : Text}
    {value : α} : collection.get? key = some value ↔ (key, value) ∈ collection.entries := by
  rw [get?, Option.map_eq_some_iff]
  constructor
  · rintro ⟨entry, found, rfl⟩
    obtain ⟨member, rfl⟩ := (find?_key distinct).mp found
    exact member
  · intro member
    exact ⟨(key, value), (find?_key distinct).mpr ⟨member, rfl⟩, rfl⟩

/-! ## Member order -/

/-- The key is the digits of an index, which is below the greatest number of 32 bits. -/
def IsIndex (key : Text) (index : Nat) : Prop := key = Text.ofNat index ∧ index < 4294967295

/-- Of two keys among those that are written the first one comes before the second one. -/
inductive KeyBefore (written : List Text) (first second : Text) : Prop where
  /-- Both are indices. -/
  | ascending {lower higher : Nat} (isFirst : IsIndex first lower)
        (isSecond : IsIndex second higher) (less : lower < higher)
  /-- Only the first one is an index. -/
  | index {index : Nat} (isFirst : IsIndex first index) (isSecond : ∀ index, ¬IsIndex second index)
  /-- Neither is an index, and the first one is written first. -/
  | written (isFirst : ∀ index, ¬IsIndex first index) (isSecond : ∀ index, ¬IsIndex second index)
    (earlier : written.idxOf first < written.idxOf second)

/-- The index of a key is found. -/
theorem index?_eq_some_iff {key : Text} {index : Nat} :
    index? key = some index ↔ IsIndex key index := by
  have value : Decimal.valueOf 10 (Text.ofNat index) = index :=
    Decimal.valueOf_inBase (by decide) (by decide) index
  constructor
  · intro found
    rw [index?] at found
    split at found
    next isIndex =>
      simp only [Bool.and_eq_true, beq_iff_eq, decide_eq_true_eq] at isIndex
      obtain rfl := Option.some.inj found
      exact ⟨isIndex.1.2.symm, isIndex.2⟩
    next => cases found
  · rintro ⟨rfl, small⟩
    have digits : (Text.ofNat index).all CodeUnit.isDigit = true :=
      List.all_eq_true.mpr (Text.digitPart_ofNat index).2
    rw [index?, value, digits]
    simpa using small

/-- A key has one index. -/
theorem IsIndex.eq {key : Text} {first second : Nat} (isFirst : IsIndex key first)
    (isSecond : IsIndex key second) : first = second :=
  Option.some.inj ((index?_eq_some_iff.mpr isFirst).symm.trans (index?_eq_some_iff.mpr isSecond))

/-- A key is no index exactly if none is found. -/
theorem index?_eq_none_iff {key : Text} : index? key = none ↔ ∀ index, ¬IsIndex key index := by
  simp only [← index?_eq_some_iff, Option.eq_none_iff_forall_ne_some, ne_eq]

/-- No two keys come before each other. -/
theorem KeyBefore.asymm {written : List Text} {first second : Text}
    (before : KeyBefore written first second) : ¬KeyBefore written second first := by
  intro after
  cases before with
  | ascending isFirst isSecond less =>
    cases after with
    | ascending isSecond' isFirst' less' =>
      rw [isFirst.eq isFirst', isSecond.eq isSecond'] at less
      exact Nat.lt_asymm less less'
    | index _ notFirst => exact notFirst _ isFirst
    | written _ notFirst _ => exact notFirst _ isFirst
  | index isFirst notSecond =>
    cases after with
    | ascending isSecond _ _ => exact notSecond _ isSecond
    | index isSecond _ => exact notSecond _ isSecond
    | written _ notFirst _ => exact notFirst _ isFirst
  | written notFirst notSecond earlier =>
    cases after with
    | ascending isSecond _ _ => exact notSecond _ isSecond
    | index isSecond _ => exact notSecond _ isSecond
    | written _ _ later => exact Nat.lt_asymm earlier later

/-- The entries that are indices, and the others. -/
theorem entries_inMemberOrder (collection : Keyed α) : collection.inMemberOrder.entries =
    (collection.entries.filter fun entry => (index? entry.1).isSome).mergeSort
        (fun first second => (index? first.1).getD 0 ≤ (index? second.1).getD 0) ++
      collection.entries.filter fun entry => !(index? entry.1).isSome := by
  rw [inMemberOrder, List.partition_eq_filter_filter]
  rfl

/-- Member order keeps the entries. -/
theorem perm_inMemberOrder (collection : Keyed α) :
    collection.inMemberOrder.entries.Perm collection.entries := by
  rw [entries_inMemberOrder]
  exact ((List.mergeSort_perm _ _).append_right _).trans (List.filter_append_perm _ _)

/-- Member order keeps keys different. -/
theorem Distinct.inMemberOrder {collection : Keyed α} (distinct : collection.Distinct) :
    collection.inMemberOrder.Distinct :=
  ((perm_inMemberOrder collection).map Prod.fst).nodup_iff.mpr distinct

/-- The keys of entries that stand where they are written first come in member order. -/
theorem pairwise_inMemberOrder {collection : Keyed α} {written : List Text}
    (ordered : collection.keys.Pairwise fun first second => written.idxOf first < written.idxOf
      second) : collection.inMemberOrder.keys.Pairwise (KeyBefore written) := by
  have isIndex {entry : Text × α} (found : (index? entry.1).isSome) :
      IsIndex entry.1 ((index? entry.1).getD 0) := by
    obtain ⟨index, found⟩ := Option.isSome_iff_exists.mp found
    rw [found]
    exact index?_eq_some_iff.mp found
  have noIndex {entry : Text × α} (none : (!(index? entry.1).isSome) = true) :
      ∀ index, ¬IsIndex entry.1 index := by
    rw [← index?_eq_none_iff]
    simpa using none
  have distinctOrdered := (distinct_of_pairwise ordered).inMemberOrder
  rw [Distinct, keys, List.Nodup, List.pairwise_map, entries_inMemberOrder,
    List.pairwise_append] at distinctOrdered
  rw [keys, List.pairwise_map, entries_inMemberOrder, List.pairwise_append]
  refine ⟨?indices, ?others, ?across⟩
  case indices =>
    have sorted := @List.pairwise_mergeSort (Text × α)
      (fun first second => decide ((index? first.1).getD 0 ≤ (index? second.1).getD 0))
      (fun first second third below above => by simp only [decide_eq_true_eq] at *; omega)
      (fun first second => by simp only [Bool.or_eq_true, decide_eq_true_eq]; omega)
      (collection.entries.filter fun entry => (index? entry.1).isSome)
    refine (sorted.and distinctOrdered.1).imp_of_mem fun {first second} inFirst inSecond both => ?_
    obtain ⟨notAbove, different⟩ := both
    have isFirst := isIndex (List.mem_filter.mp (List.mem_mergeSort.mp inFirst)).2
    have isSecond := isIndex (List.mem_filter.mp (List.mem_mergeSort.mp inSecond)).2
    refine .ascending isFirst isSecond
      (Nat.lt_of_le_of_ne (of_decide_eq_true notAbove) fun same => different ?_)
    rw [isFirst.1, same, ← isSecond.1]
  case others =>
    refine ((List.pairwise_map.mp ordered).filter _).imp_of_mem fun inFirst inSecond earlier => ?_
    exact .written (noIndex (List.mem_filter.mp inFirst).2)
      (noIndex (List.mem_filter.mp inSecond).2) earlier
  case across =>
    intro first inFirst second inSecond
    exact .index (isIndex (List.mem_filter.mp (List.mem_mergeSort.mp inFirst)).2)
      (noIndex (List.mem_filter.mp inSecond).2)

end Keyed

namespace Json

/-! ## Objects -/

/-- The value is an object. -/
def IsObject (value : Json) : Prop := ∃ members, value = object members

/-- The member of an object under a key: of those that are written with it the last one. -/
def member? (key : Text) : Json → Option Json
  | object members => Keyed.last? members key
  | _ => none

/-- The keys of an object as they are written, with repetitions. -/
def writtenKeys : Json → List Text
  | object members => members.map Prod.fst
  | _ => []

/-- Exactly objects have members. -/
theorem members?_eq_none_iff {value : Json} : value.members? = none ↔ ¬value.IsObject := by
  cases value <;> simp [members?, IsObject]

/-- A collection has the members of a value. -/
structure HasMembers (value : Json) (members : Keyed Json) : Prop where
  /-- The value is an object. -/
  object : value.IsObject
  /-- The keys are the written ones. -/
  keys : ∀ key, key ∈ members.keys ↔ key ∈ value.writtenKeys
  /-- They are different and in member order. -/
  ordered : members.keys.Pairwise (Keyed.KeyBefore value.writtenKeys)
  /-- The entries are the members under the keys. -/
  entries : ∀ key member, (key, member) ∈ members.entries ↔ value.member? key = some member

/-- The members of a value are found. -/
theorem hasMembers_of_members? {value : Json} {members : Keyed Json}
    (found : value.members? = some members) : value.HasMembers members := by
  cases value with
  | object written =>
    obtain rfl := Option.some.inj found
    have distinct := Keyed.distinct_ofList written
    refine ⟨⟨_, rfl⟩, fun key => ?_,
      Keyed.pairwise_inMemberOrder (Keyed.pairwise_keys_ofList written), fun key member => ?_⟩
    · rw [Keyed.keys, ((Keyed.perm_inMemberOrder _).map Prod.fst).mem_iff]
      exact Keyed.mem_keys_ofList
    · rw [(Keyed.perm_inMemberOrder _).mem_iff, ← Keyed.get?_eq_some_iff distinct,
        Keyed.get?_ofList]
      rfl
  | _ => cases found

/-- The keys of members are different. -/
theorem HasMembers.distinct {value : Json} {members : Keyed Json} (has : value.HasMembers members) :
    members.Distinct :=
  has.ordered.imp fun before same => by
    subst same
    exact before.asymm before

/-- A member is found under its key. -/
theorem HasMembers.get? {value : Json} {members : Keyed Json} (has : value.HasMembers members)
    (key : Text) : members.get? key = value.member? key :=
  Option.ext fun member => by rw [Keyed.get?_eq_some_iff has.distinct, has.entries]

end Json

end Marginalia
